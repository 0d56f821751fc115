import Mathlib.Data.List.Forall2
import Mathlib.Data.Set.Defs
import PrimeForm.Term

/-!
# Implicants

A term stands for a cube: the vectors of truth values that agree with it at every position that
is not open. It is an implicant of a set of vectors if its cube lies in the set, and a prime
implicant if it is one for the last time, so that no position can be opened any more.

Opening a position joins the two cubes in which the position has a value. Merging is the same
step backwards: two terms merge exactly when they are the halves of a cube, and the merger is the
whole of it.

## Main definitions

* `Term.Admits` — a vector lies in the cube of a term
* `Term.withBit` — a term with one position changed
* `Term.IsImplicant`, `Term.IsPrimeImplicant` — the cube lies in a set, and cannot be enlarged

## Main results

* `Term.combine_eq_some_iff` — what merges with what, and into what
* `Term.isImplicant_withBit_none_iff` — a cube lies in a set when both of its halves do
* `Term.exists_isPrimeImplicant_of_isImplicant` — every implicant lies in a prime one
-/

namespace PrimeForm

namespace Term

variable {s t u c : Term} {v : List Bool} {i : Nat}

/-! ### Cubes -/

/-- A vector agrees with a term: there is a value for each position, and it is the one that the
position asks for, if it asks for any. -/
def Admits (t : Term) (v : List Bool) : Prop :=
  List.Forall₂ (fun bit value => bit = none ∨ bit = some value) t.bits v

/-- The term with another bit at a position. -/
def withBit (t : Term) (i : Nat) (bit : Option Bool) : Term := ⟨t.bits.set i bit⟩

theorem Admits.length_eq (h : t.Admits v) : v.length = t.width := (List.Forall₂.length_eq h).symm

@[simp] theorem width_withBit (bit : Option Bool) : (t.withBit i bit).width = t.width :=
  List.length_set

theorem lt_width_of_getElem? {bit : Option Bool} (h : t.bits[i]? = some bit) : i < t.width :=
  (List.getElem?_eq_some_iff.mp h).1

theorem withBit_eq_self {bit : Option Bool} (h : t.bits[i]? = some bit) : t.withBit i bit = t := by
  obtain ⟨hi, rfl⟩ := List.getElem?_eq_some_iff.mp h
  exact congrArg Term.mk (List.set_getElem_self hi)

@[simp] theorem withBit_withBit (bit bit' : Option Bool) :
    (t.withBit i bit).withBit i bit' = t.withBit i bit' :=
  congrArg Term.mk (List.set_set bit)

theorem getElem?_withBit (h : i < t.width) (bit : Option Bool) :
    (t.withBit i bit).bits[i]? = some bit :=
  List.getElem?_set_self h

/-- Opening a position joins the two halves of the new cube. -/
theorem admits_withBit_none_iff (h : i < t.width) :
    (t.withBit i none).Admits v ↔ ∃ b, (t.withBit i (some b)).Admits v := by
  obtain ⟨bits⟩ := t
  simp only [Admits, withBit, width] at h ⊢
  induction bits generalizing i v with
  | nil => exact absurd h (Nat.not_lt_zero i)
  | cons bit bits ih =>
    cases v with
    | nil => cases i <;> simp
    | cons value v =>
      cases i with
      | zero => simp
      | succ i =>
        -- The first position is the same on both sides, and asks for the same value.
        simp only [List.set_cons_succ, List.forall₂_cons, exists_and_left]
        exact and_congr_right fun _ => ih (Nat.lt_of_succ_lt_succ h)

/-- A term without open positions admits the vector of its values only. -/
theorem admits_map_some_iff {w : List Bool} : (⟨w.map some⟩ : Term).Admits v ↔ w = v := by
  simp [Admits, List.forall₂_map_left_iff, List.forall₂_eq_eq_eq]

theorem admits_ofMinterm_iff {m : Minterm} {n : Nat} :
    (ofMinterm m n).Admits v ↔ indexBits m.toNat n = v :=
  admits_map_some_iff

/-! ### Merging -/

/-- Two terms merge when they are opposite at one position and equal at all others; the merger
leaves the position open. -/
theorem combine_eq_some_iff : s.combine t = some c ↔
    ∃ i b, s.bits[i]? = some (some b) ∧ t = s.withBit i (some !b) ∧ c = s.withBit i none := by
  obtain ⟨bs⟩ := t
  obtain ⟨cs⟩ := c
  simp only [combine_eq_some_iff_set, withBit, Term.mk.injEq]

/-- The halves of a cube merge. -/
theorem combine_withBit (h : i < t.width) :
    (t.withBit i (some false)).combine (t.withBit i (some true)) = some (t.withBit i none) :=
  combine_eq_some_iff.mpr ⟨i, false, getElem?_withBit h _, by simp, by simp⟩

/-- Equal terms do not merge. -/
@[simp] theorem combine_self (t : Term) : t.combine t = none := by
  rw [Option.eq_none_iff_forall_ne_some]
  intro c h
  obtain ⟨i, b, hi, hself, -⟩ := combine_eq_some_iff.mp h
  -- The term would be opposite to itself at a position.
  have hflip := getElem?_withBit (lt_width_of_getElem? hi) (some !b)
  rw [← hself, hi] at hflip
  cases b <;> simp at hflip

theorem dontCares_withBit_none {b : Bool} (h : t.bits[i]? = some (some b)) :
    (t.withBit i none).dontCares = t.dontCares + 1 := by
  obtain ⟨hi, hb⟩ := List.getElem?_eq_some_iff.mp h
  simp [dontCares, withBit, List.count_set hi, hb]

theorem dontCares_withBit_some (h : t.bits[i]? = some none) (b : Bool) :
    (t.withBit i (some b)).dontCares + 1 = t.dontCares := by
  have hopen := dontCares_withBit_none (getElem?_withBit (lt_width_of_getElem? h) (some b))
  rw [withBit_withBit, withBit_eq_self h] at hopen
  exact hopen.symm

theorem dontCares_withBit_flip {b : Bool} (h : t.bits[i]? = some (some b)) (b' : Bool) :
    (t.withBit i (some b')).dontCares = t.dontCares := by
  have hother := dontCares_withBit_none (getElem?_withBit (lt_width_of_getElem? h) (some b'))
  rw [withBit_withBit, dontCares_withBit_none h] at hother
  exact (Nat.succ.inj hother).symm

theorem exists_open_of_dontCares {k : Nat} (h : t.dontCares = k + 1) :
    ∃ i : Nat, t.bits[i]? = some none := by
  have hmem : none ∈ t.bits := List.count_pos_iff.mp (by rw [dontCares] at h; omega)
  exact List.getElem?_of_mem hmem

/-- A term that opens no position is a vector of values. -/
theorem exists_eq_map_some (h : t.dontCares = 0) : ∃ v : List Bool, t = ⟨v.map some⟩ := by
  obtain ⟨bits⟩ := t
  have hsome : ∀ bit ∈ bits, some (bit.getD false) = bit := by
    intro bit hbit
    cases bit with
    | none => exact absurd hbit (List.count_eq_zero.mp h)
    | some b => rfl
  refine ⟨bits.map fun bit => bit.getD false, congrArg Term.mk ?_⟩
  rw [List.map_map]
  exact ((List.map_congr_left hsome).trans (List.map_id' bits)).symm

theorem dontCares_map_some (w : List Bool) : (⟨w.map some⟩ : Term).dontCares = 0 :=
  List.count_eq_zero.mpr (by simp)

theorem dontCares_le_width (t : Term) : t.dontCares ≤ t.width := List.count_le_length

/-- A term that leaves every position open admits all vectors of its width. -/
theorem admits_of_dontCares_eq_width (h : t.dontCares = t.width) (hv : v.length = t.width) :
    t.Admits v := by
  have hopen : ∀ bit ∈ t.bits, none = bit := List.count_eq_length.mp h
  refine List.forall₂_iff_zip.mpr ⟨hv.symm, fun {bit value} hmem => Or.inl ?_⟩
  exact (hopen bit (List.of_mem_zip hmem).1).symm

/-! ### Implicants -/

/-- Every vector in the cube of the term belongs to the set. -/
def IsImplicant (points : Set (List Bool)) (t : Term) : Prop := ∀ v, t.Admits v → v ∈ points

/-- The term is an implicant, and opening any one of its fixed positions would add a vector that
does not belong to the set. -/
def IsPrimeImplicant (points : Set (List Bool)) (t : Term) : Prop :=
  t.IsImplicant points ∧
    ∀ (i : Nat) (b : Bool), t.bits[i]? = some (some b) → ¬ (t.withBit i none).IsImplicant points

variable {points : Set (List Bool)}

/-- A cube lies in a set exactly when both of its halves do. -/
theorem isImplicant_withBit_none_iff (h : i < t.width) :
    (t.withBit i none).IsImplicant points ↔ ∀ b, (t.withBit i (some b)).IsImplicant points := by
  simp only [IsImplicant, admits_withBit_none_iff h, forall_exists_index]
  exact forall_comm

/-- The merger of two implicants is an implicant. -/
theorem IsImplicant.of_combine (hs : s.IsImplicant points) (ht : t.IsImplicant points)
    (h : s.combine t = some c) : c.IsImplicant points := by
  obtain ⟨i, b, hi, rfl, rfl⟩ := combine_eq_some_iff.mp h
  rw [isImplicant_withBit_none_iff (lt_width_of_getElem? hi)]
  intro b'
  -- One of the two halves is the first term, and the other is the second.
  cases hb : b' == b with
  | true => rwa [eq_of_beq hb, withBit_eq_self hi]
  | false => rwa [show b' = !b by cases b <;> cases b' <;> simp_all]

/-- A vector in the cube of an implicant lies in the cube of a prime implicant. -/
theorem exists_isPrimeImplicant_of_isImplicant (h : t.IsImplicant points) (hv : t.Admits v) :
    ∃ u : Term, u.IsPrimeImplicant points ∧ u.width = t.width ∧ u.Admits v := by
  -- Each opened position uses up one of those that are still fixed.
  induction hn : t.width - t.dontCares using Nat.strongRecOn generalizing t with
  | ind n ih =>
    by_cases hprime : t.IsPrimeImplicant points
    · exact ⟨t, hprime, rfl, hv⟩
    · -- A term that is not prime has a position that can be opened, and the larger cube keeps `v`.
      simp only [IsPrimeImplicant, h, true_and, not_forall, not_not] at hprime
      obtain ⟨i, b, hi, hopen⟩ := hprime
      have hlt := lt_width_of_getElem? hi
      have hadmits : (t.withBit i none).Admits v :=
        (admits_withBit_none_iff hlt).mpr ⟨b, by rwa [withBit_eq_self hi]⟩
      have hcount := dontCares_withBit_none hi
      have hle := dontCares_le_width (t.withBit i none)
      rw [width_withBit] at hle
      obtain ⟨u, hu, hwidth, hadm⟩ :=
        ih _ (by rw [width_withBit]; omega) hopen hadmits rfl
      exact ⟨u, hu, by rw [hwidth, width_withBit], hadm⟩

end Term

end PrimeForm
