import Mathlib.Data.Set.Basic
import PrimeForm.Proofs.Implicant

/-!
# Merging as the union of cubes

Merging compares two terms position by position. In terms of cubes it asks whether the two cubes
have no vector in common and make up a cube together, and gives the term of that cube. The
comparison misses no such pair: cubes whose first positions differ can only make up a cube if one
of them holds its lower half and the other its upper half, and then the rest of both is the same.

## Main definitions

* `Term.cube` — the vectors that agree with a term
* `Term.IsSplit` — a cube is the disjoint union of two others

## Main results

* `Term.cube_injective` — a term is determined by its cube
* `Term.combine_eq_some_iff_isSplit` — what merges is what makes up a cube
* `Term.combine_outcome` — merging in terms of cubes
-/

namespace PrimeForm

namespace Term

variable {s t c : Term} {v : List Bool}

/-- The vectors that agree with a term. -/
def cube (t : Term) : Set (List Bool) := {v | t.Admits v}

theorem mem_cube : v ∈ t.cube ↔ t.Admits v := Iff.rfl

/-! ### Cubes by their first position -/

/-- A position allows a value if it is open or asks for that value. -/
def Allows (bit : Option Bool) (value : Bool) : Prop := bit = none ∨ bit = some value

@[simp] theorem allows_none (value : Bool) : Allows none value := Or.inl rfl

@[simp] theorem allows_some_iff {b value : Bool} : Allows (some b) value ↔ b = value := by
  simp [Allows]

theorem exists_allows (bit : Option Bool) : ∃ value, Allows bit value := by
  cases bit with
  | none => exact ⟨false, allows_none false⟩
  | some b => exact ⟨b, allows_some_iff.mpr rfl⟩

/-- A position is determined by the values it allows. -/
theorem eq_of_allows_iff {a b : Option Bool} (h : ∀ value, Allows a value ↔ Allows b value) :
    a = b := by
  have hfalse := h false
  have htrue := h true
  rcases a with _ | _ | _ <;> rcases b with _ | _ | _ <;> simp_all

theorem admits_cons_iff {bit : Option Bool} {bits : List (Option Bool)} {value : Bool} :
    (⟨bit :: bits⟩ : Term).Admits (value :: v) ↔ Allows bit value ∧ (⟨bits⟩ : Term).Admits v :=
  List.forall₂_cons

theorem admits_nil : (⟨[]⟩ : Term).Admits [] := List.Forall₂.nil

/-- No cube is empty. -/
theorem exists_admits (t : Term) : ∃ v, t.Admits v := by
  obtain ⟨bits⟩ := t
  induction bits with
  | nil => exact ⟨[], admits_nil⟩
  | cons bit bits ih =>
    obtain ⟨v, hv⟩ := ih
    obtain ⟨value, hvalue⟩ := exists_allows bit
    exact ⟨value :: v, admits_cons_iff.mpr ⟨hvalue, hv⟩⟩

theorem width_eq_of_admits (hs : s.Admits v) (ht : t.Admits v) : s.width = t.width :=
  hs.length_eq.symm.trans ht.length_eq

/-- A vector has the values that a term asks for. -/
theorem Admits.getElem?_eq {i : Nat} {b : Bool} (h : t.Admits v) (hi : t.bits[i]? = some (some b)) :
    v[i]? = some b := by
  have hlt : i < v.length := h.length_eq ▸ lt_width_of_getElem? hi
  obtain ⟨hbit, hb⟩ := List.getElem?_eq_some_iff.mp hi
  have hagree := List.Forall₂.get h hbit hlt
  rw [List.get_eq_getElem, hb] at hagree
  rw [List.getElem?_eq_getElem hlt]
  simpa [eq_comm] using hagree

theorem eq_of_admits_iff {as bs : List (Option Bool)}
    (h : ∀ v, (⟨as⟩ : Term).Admits v ↔ (⟨bs⟩ : Term).Admits v) : as = bs := by
  induction as generalizing bs with
  | nil =>
    have hwidth := width_eq_of_admits admits_nil ((h []).mp admits_nil)
    exact (List.eq_nil_of_length_eq_zero hwidth.symm).symm
  | cons a as ih =>
    obtain ⟨w, hw⟩ := exists_admits ⟨a :: as⟩
    cases bs with
    | nil => exact absurd (width_eq_of_admits hw ((h w).mp hw)) (Nat.succ_ne_zero as.length)
    | cons b bs =>
      have hcons (x : Bool) (v : List Bool) : Allows a x ∧ (⟨as⟩ : Term).Admits v ↔
          Allows b x ∧ (⟨bs⟩ : Term).Admits v := by
        rw [← admits_cons_iff, ← admits_cons_iff, h]
      have hhead : a = b := by
        obtain ⟨w, hw⟩ := exists_admits ⟨as⟩
        obtain ⟨w', hw'⟩ := exists_admits ⟨bs⟩
        exact eq_of_allows_iff fun x =>
          ⟨fun ha => ((hcons x w).mp ⟨ha, hw⟩).1, fun hb => ((hcons x w').mpr ⟨hb, hw'⟩).1⟩
      subst hhead
      obtain ⟨x, hx⟩ := exists_allows a
      rw [ih fun v => by simpa [hx] using hcons x v]

/-- A term is determined by its cube. -/
theorem cube_injective : Function.Injective cube := fun _ _ h =>
  congrArg Term.mk (eq_of_admits_iff fun v => Set.ext_iff.mp h v)

/-! ### Disjoint unions of cubes -/

/-- The cube of a term is the disjoint union of the cubes of two others. -/
structure IsSplit (s t c : Term) : Prop where
  disjoint : ∀ v, s.Admits v → ¬ t.Admits v
  admits_iff : ∀ v, c.Admits v ↔ s.Admits v ∨ t.Admits v

namespace IsSplit

theorem symm (h : IsSplit s t c) : IsSplit t s c where
  disjoint := fun v ht hs => h.disjoint v hs ht
  admits_iff := fun v => (h.admits_iff v).trans or_comm

theorem width_eq (h : IsSplit s t c) : s.width = c.width := by
  obtain ⟨v, hv⟩ := exists_admits s
  exact width_eq_of_admits hv ((h.admits_iff v).mpr (Or.inl hv))

/-- The other part is not empty, so neither part is the whole. -/
theorem ne (h : IsSplit s t c) : s ≠ c := by
  rintro rfl
  obtain ⟨v, hv⟩ := exists_admits t
  exact h.disjoint v ((h.admits_iff v).mpr (Or.inr hv)) hv

section Heads

variable {a b d : Option Bool} {as bs ds : List (Option Bool)} {x : Bool}

/-- The whole allows a value at its first position if one of the parts does. -/
theorem allows_iff (h : IsSplit ⟨a :: as⟩ ⟨b :: bs⟩ ⟨d :: ds⟩) :
    Allows d x ↔ Allows a x ∨ Allows b x := by
  constructor
  · intro hd
    obtain ⟨w, hw⟩ := exists_admits ⟨ds⟩
    have hpart := (h.admits_iff (x :: w)).mp (admits_cons_iff.mpr ⟨hd, hw⟩)
    rw [admits_cons_iff, admits_cons_iff] at hpart
    exact hpart.imp And.left And.left
  · rintro (ha | hb)
    · obtain ⟨w, hw⟩ := exists_admits ⟨as⟩
      exact (admits_cons_iff.mp ((h.admits_iff _).mpr (Or.inl (admits_cons_iff.mpr ⟨ha, hw⟩)))).1
    · obtain ⟨w, hw⟩ := exists_admits ⟨bs⟩
      exact (admits_cons_iff.mp ((h.admits_iff _).mpr (Or.inr (admits_cons_iff.mpr ⟨hb, hw⟩)))).1

/-- At a value that both parts allow, the rest of the whole is split in the same way. -/
theorem tail (h : IsSplit ⟨a :: as⟩ ⟨b :: bs⟩ ⟨d :: ds⟩) (ha : Allows a x) (hb : Allows b x) :
    IsSplit ⟨as⟩ ⟨bs⟩ ⟨ds⟩ where
  disjoint := fun v hs ht =>
    h.disjoint (x :: v) (admits_cons_iff.mpr ⟨ha, hs⟩) (admits_cons_iff.mpr ⟨hb, ht⟩)
  admits_iff := fun v => by
    have hv := h.admits_iff (x :: v)
    rw [admits_cons_iff, admits_cons_iff, admits_cons_iff] at hv
    simpa [h.allows_iff, ha, hb] using hv

/-- At a value that only one part allows, that part is the rest of the whole. -/
theorem tail_eq (h : IsSplit ⟨a :: as⟩ ⟨b :: bs⟩ ⟨d :: ds⟩) (ha : Allows a x) (hb : ¬ Allows b x) :
    as = ds := by
  have hcube : (⟨as⟩ : Term).cube = (⟨ds⟩ : Term).cube := by
    ext v
    have hv := h.admits_iff (x :: v)
    rw [admits_cons_iff, admits_cons_iff, admits_cons_iff] at hv
    rw [mem_cube, mem_cube]
    simpa [h.allows_iff, ha, hb] using hv.symm
  exact congrArg Term.bits (cube_injective hcube)

/-- An open position on one side only would leave one of the parts no room. -/
theorem not_open_left {y : Bool} (h : IsSplit ⟨none :: as⟩ ⟨some y :: bs⟩ ⟨d :: ds⟩) : False := by
  have hopen : as = ds := h.tail_eq (x := !y) (allows_none _) (by simp)
  have hrest : IsSplit ⟨as⟩ ⟨bs⟩ ⟨ds⟩ := h.tail (allows_none y) (allows_some_iff.mpr rfl)
  exact hrest.ne (congrArg Term.mk hopen)

end Heads

/-- Two cubes that make up a cube are opposite at one position and equal at all others. -/
theorem exists_eq_set {as bs cs : List (Option Bool)} (h : IsSplit ⟨as⟩ ⟨bs⟩ ⟨cs⟩) :
    ∃ i b, as[i]? = some (some b) ∧ bs = as.set i (some !b) ∧ cs = as.set i none := by
  induction as generalizing bs cs with
  | nil =>
    -- Both parts would consist of the empty vector.
    have hbs : bs = [] := List.eq_nil_of_length_eq_zero (h.symm.width_eq.trans h.width_eq.symm)
    exact absurd (hbs ▸ admits_nil) (h.disjoint [] admits_nil)
  | cons a as ih =>
    obtain ⟨d, ds, rfl⟩ := List.exists_cons_of_length_eq_add_one h.width_eq.symm
    obtain ⟨b, bs, rfl⟩ := List.exists_cons_of_length_eq_add_one h.symm.width_eq
    by_cases hab : a = b
    · -- Equal first positions: the whole has the same one, and the rest is split.
      subst hab
      obtain ⟨x, hx⟩ := exists_allows a
      have hd : d = a := eq_of_allows_iff fun y => by rw [h.allows_iff, or_self]
      obtain ⟨i, y, hi, rfl, rfl⟩ := ih (h.tail hx hx)
      exact ⟨i + 1, y, hi, rfl, by rw [hd, List.set_cons_succ]⟩
    · -- The first positions ask for opposite values, and the rest of both parts is the same.
      cases a with
      | none =>
        cases b with
        | none => exact absurd rfl hab
        | some y => exact h.not_open_left.elim
      | some x =>
        cases b with
        | none => exact h.symm.not_open_left.elim
        | some y =>
          obtain rfl : y = !x := Bool.eq_not_of_ne fun heq => hab (heq ▸ rfl)
          have has : as = ds := h.tail_eq (x := x) (allows_some_iff.mpr rfl) (by simp)
          have hbs : bs = ds := h.symm.tail_eq (x := !x) (allows_some_iff.mpr rfl) (by simp)
          have hd : d = none := eq_of_allows_iff fun z => by
            rw [h.allows_iff, allows_some_iff, allows_some_iff]
            cases x <;> cases z <;> simp
          exact ⟨0, x, rfl, by rw [hbs, has, List.set_cons_zero],
            by rw [hd, has, List.set_cons_zero]⟩

end IsSplit

/-! ### Merging in terms of cubes -/

/-- The merger is the disjoint union of the two terms. -/
theorem isSplit_of_combine (h : s.combine t = some c) : IsSplit s t c := by
  obtain ⟨i, b, hi, rfl, rfl⟩ := combine_eq_some_iff.mp h
  have hlt := lt_width_of_getElem? hi
  constructor
  · -- The two terms ask for opposite values at the position where they differ.
    intro v hs ht
    have hb := hs.getElem?_eq hi
    have hother := ht.getElem?_eq (getElem?_withBit hlt (some !b))
    rw [hb] at hother
    cases b <;> cases hother
  · intro v
    have hself : (s.withBit i (some b)).Admits v ↔ s.Admits v := by rw [withBit_eq_self hi]
    rw [admits_withBit_none_iff hlt, Bool.exists_bool]
    cases b with
    | false => rw [hself, Bool.not_false]
    | true => rw [hself, Bool.not_true, or_comm]

theorem combine_eq_some_iff_isSplit : s.combine t = some c ↔ IsSplit s t c :=
  ⟨isSplit_of_combine, fun h => combine_eq_some_iff_set.mpr h.exists_eq_set⟩

theorem isSplit_iff_cube :
    IsSplit s t c ↔ s.cube ∩ t.cube = ∅ ∧ s.cube ∪ t.cube = c.cube := by
  rw [Set.eq_empty_iff_forall_notMem, Set.ext_iff]
  constructor
  · intro h
    exact ⟨fun v hv => h.disjoint v hv.1 hv.2, fun v => (h.admits_iff v).symm⟩
  · rintro ⟨hempty, hunion⟩
    exact ⟨fun v hs ht => hempty v ⟨hs, ht⟩, fun v => (hunion v).symm⟩

/-- A term does not merge with one that it lies in. -/
theorem combine_eq_none_of_subset (h : s.cube ⊆ t.cube) : s.combine t = none := by
  rw [Option.eq_none_iff_forall_ne_some]
  intro c hc
  obtain ⟨v, hv⟩ := exists_admits s
  exact (isSplit_of_combine hc).disjoint v hv (h hv)

/-- Two terms merge into a third exactly when they have the same width, their cubes have no vector
in common and make up its cube together. The order of the two does not matter, and a term merges
neither with itself nor with a term that it lies in or that lies in it. -/
theorem combine_outcome (s t : Term) :
    (∀ c, s.combine t = some c ↔
      s.width = t.width ∧ s.cube ∩ t.cube = ∅ ∧ s.cube ∪ t.cube = c.cube) ∧
    s.combine t = t.combine s ∧
    s.combine s = none ∧
    (s.cube ⊆ t.cube ∨ t.cube ⊆ s.cube → s.combine t = none) := by
  refine ⟨fun c => ?_, combine_comm s t, combine_self s, ?_⟩
  · rw [combine_eq_some_iff_isSplit, ← isSplit_iff_cube]
    exact ⟨fun h => ⟨h.width_eq.trans h.symm.width_eq.symm, h⟩, And.right⟩
  · rintro (h | h)
    · exact combine_eq_none_of_subset h
    · rw [combine_comm, combine_eq_none_of_subset h]

end Term

end PrimeForm
