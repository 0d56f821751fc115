import Mathlib.Data.List.Induction
import PrimeForm.Proofs.Cubes
import PrimeForm.Proofs.SumOfProducts

/-!
# The rows of a term

The numbers of the rows in which a term is true are found position by position: each number is
continued by the bits that the position allows. As long as the positions fit into a word no bit is
lost on the left, and the numbers come out in ascending order, so sorting them changes nothing.

## Main definitions

* `Term.allowedValues` — the values that a position allows, as a list
* `Term.ListsRows` — a list holds the rows of a term in ascending order

## Main results

* `Term.pairwise_extend`, `Term.mem_extend_iff` — one position
* `Term.listsRows_minterms` — all positions
* `Term.minterms_outcome` — the listed rows are the covered ones
-/

namespace PrimeForm

/-! ### Numbers by their last bit -/

theorem rowsOver_le_rowsOver {n k : Nat} (h : n ≤ k) : rowsOver n ≤ rowsOver k :=
  Nat.pow_le_pow_right (by decide) h

/-- The last bit of a number stands behind the bits of its half. -/
theorem indexBits_succ_eq_append (i n : Nat) :
    indexBits i (n + 1) = indexBits (i / 2) n ++ [i.testBit 0] := by
  induction n with
  | zero => rfl
  | succ n ih =>
    rw [indexBits, ih, indexBits, Nat.testBit_div_two, List.cons_append]

theorem two_mul_half_add_bit (i : Nat) : 2 * (i / 2) + (i.testBit 0).toNat = i := by
  rw [Nat.testBit_zero]
  rcases Nat.mod_two_eq_zero_or_one i with h | h
  · simp only [h, Nat.zero_ne_one, decide_false, Bool.toNat_false]
    omega
  · simp only [h, decide_true, Bool.toNat_true]
    omega

theorem indexBits_two_mul_add (i n : Nat) (b : Bool) :
    indexBits (2 * i + b.toNat) (n + 1) = indexBits i n ++ [b] := by
  have hhalf : (2 * i + b.toNat) / 2 = i := by
    have := Bool.toNat_lt b
    omega
  have hbit : (2 * i + b.toNat).testBit 0 = b := by cases b <;> simp [Nat.testBit_zero]
  rw [indexBits_succ_eq_append, hhalf, hbit]

namespace Term

/-- Continuing a number doubles it and adds the bit, unless a bit is lost on the left. -/
theorem toNat_shiftIn {m : Minterm} (h : m.toNat < rowsOver 63) (b : Bool) :
    (shiftIn m b).toNat = 2 * m.toNat + b.toNat := by
  have hbit : b.toUInt64.toNat = b.toNat := by cases b <;> rfl
  have hshift : (m <<< 1).toNat = m.toNat <<< 1 := by
    have hlt : m.toNat <<< 1 < 2 ^ 64 := by
      rw [Nat.shiftLeft_eq]
      exact Nat.mul_lt_mul_of_pos_right h (by decide)
    exact (UInt64.toNat_shiftLeft m 1).trans (Nat.mod_eq_of_lt hlt)
  rw [shiftIn, UInt64.toNat_or, hshift, hbit, ← Nat.shiftLeft_add_eq_or_of_lt (Bool.toNat_lt b),
    Nat.shiftLeft_eq, Nat.mul_comm, Nat.pow_one]

/-- The values that a position allows. -/
def allowedValues : Option Bool → List Bool
  | some b => [b]
  | none => [false, true]

theorem mem_allowedValues_iff {bit : Option Bool} {b : Bool} :
    b ∈ allowedValues bit ↔ Allows bit b := by
  cases bit with
  | none => cases b <;> simp [allowedValues]
  | some b' => rw [allowedValues, List.mem_singleton, allows_some_iff, eq_comm]

/-! ### One position -/

theorem extend_eq_flatMap (ms : List Minterm) (bit : Option Bool) :
    extend ms bit = ms.flatMap fun m => (allowedValues bit).map (shiftIn m) := by
  cases bit with
  | none => rfl
  | some b => exact List.map_eq_flatMap

theorem mem_extend_iff {ms : List Minterm} {bit : Option Bool} {m : Minterm} :
    m ∈ extend ms bit ↔ ∃ m' ∈ ms, ∃ b, Allows bit b ∧ shiftIn m' b = m := by
  simp only [extend_eq_flatMap, List.mem_flatMap, List.mem_map, mem_allowedValues_iff]

theorem length_extend (ms : List Minterm) (bit : Option Bool) :
    (extend ms bit).length = ms.length * (allowedValues bit).length := by
  rw [extend_eq_flatMap, List.length_flatMap]
  simp only [List.length_map, List.map_const', List.sum_replicate_nat]

/-- Numbers with room for one more bit keep their order, whatever they are continued by. -/
theorem pairwise_extend {ms : List Minterm} (h : ms.Pairwise (· < ·))
    (hroom : ∀ m ∈ ms, m.toNat < rowsOver 63) (bit : Option Bool) :
    (extend ms bit).Pairwise (· < ·) := by
  rw [extend_eq_flatMap, List.pairwise_flatMap]
  constructor
  · -- Of the two ways to continue a number, the `0` comes first.
    intro m hm
    cases bit with
    | some b => exact List.pairwise_singleton _ _
    | none =>
      have hlt : shiftIn m false < shiftIn m true := by
        rw [UInt64.lt_iff_toNat_lt, toNat_shiftIn (hroom m hm), toNat_shiftIn (hroom m hm)]
        exact Nat.lt_succ_self _
      exact List.pairwise_pair.mpr hlt
  · refine h.imp_of_mem fun {m m'} hm hm' hlt x hx y hy => ?_
    obtain ⟨b, -, rfl⟩ := List.mem_map.mp hx
    obtain ⟨b', -, rfl⟩ := List.mem_map.mp hy
    rw [UInt64.lt_iff_toNat_lt] at hlt
    rw [UInt64.lt_iff_toNat_lt, toNat_shiftIn (hroom m hm), toNat_shiftIn (hroom m' hm')]
    have := Bool.toNat_lt b
    omega

/-- An open position doubles the number of rows. -/
theorem rowsOver_dontCares_append (bits : List (Option Bool)) (bit : Option Bool) :
    rowsOver (⟨bits ++ [bit]⟩ : Term).dontCares =
      rowsOver (⟨bits⟩ : Term).dontCares * (allowedValues bit).length := by
  have hcount : (⟨bits ++ [bit]⟩ : Term).dontCares =
      (⟨bits⟩ : Term).dontCares + [bit].count none := List.count_append
  rw [hcount]
  cases bit with
  | none => exact rowsOver_succ _
  | some b => exact (Nat.mul_one _).symm

theorem admits_append_singleton_iff {bits : List (Option Bool)} {bit : Option Bool}
    {v : List Bool} {b : Bool} :
    (⟨bits ++ [bit]⟩ : Term).Admits (v ++ [b]) ↔ (⟨bits⟩ : Term).Admits v ∧ Allows bit b := by
  -- From behind, the last position is the first.
  rw [Admits, Admits, ← List.forall₂_reverse_iff, List.reverse_concat, List.reverse_concat,
    List.forall₂_cons, List.forall₂_reverse_iff, and_comm]
  rfl

/-! ### All positions -/

/-- The list holds the rows of a term in ascending order. -/
structure ListsRows (t : Term) (ms : List Minterm) : Prop where
  ascending : ms.Pairwise (· < ·)
  length_eq : ms.length = rowsOver t.dontCares
  mem_iff : ∀ m, m ∈ ms ↔ m.toNat < rowsOver t.width ∧ t.Admits (indexBits m.toNat t.width)

namespace ListsRows

variable {bits : List (Option Bool)} {ms : List Minterm}

theorem nil : ListsRows ⟨[]⟩ [0] where
  ascending := List.pairwise_singleton _ _
  length_eq := rfl
  mem_iff := fun m => by
    have hzero : m = 0 ↔ m.toNat < 1 := by
      rw [Nat.lt_one_iff, ← UInt64.toNat_inj, UInt64.toNat_zero]
    rw [List.mem_singleton, hzero]
    exact (and_iff_left admits_nil).symm

theorem extend (h : ListsRows ⟨bits⟩ ms) (hlen : bits.length < 64) (bit : Option Bool) :
    ListsRows ⟨bits ++ [bit]⟩ (extend ms bit) := by
  have hroom (m : Minterm) (hm : m ∈ ms) : m.toNat < rowsOver 63 :=
    Nat.lt_of_lt_of_le ((h.mem_iff m).mp hm).1 (rowsOver_le_rowsOver (Nat.le_of_lt_succ hlen))
  have hwidth : (⟨bits ++ [bit]⟩ : Term).width = (⟨bits⟩ : Term).width + 1 := List.length_append
  refine ⟨pairwise_extend h.ascending hroom bit, ?_, fun m => ?_⟩
  · rw [length_extend, h.length_eq, rowsOver_dontCares_append]
  · rw [mem_extend_iff, hwidth, rowsOver_succ]
    constructor
    · rintro ⟨m', hm', b, hb, rfl⟩
      obtain ⟨hlt, hadmits⟩ := (h.mem_iff m').mp hm'
      have := Bool.toNat_lt b
      rw [toNat_shiftIn (hroom m' hm'), indexBits_two_mul_add, admits_append_singleton_iff]
      exact ⟨by omega, hadmits, hb⟩
    · rintro ⟨hlt, hadmits⟩
      -- The number is its half, continued by its last bit.
      rw [indexBits_succ_eq_append, admits_append_singleton_iff] at hadmits
      have htoNat : (UInt64.ofNat (m.toNat / 2)).toNat = m.toNat / 2 :=
        UInt64.toNat_ofNat_of_lt' (Nat.lt_of_le_of_lt (Nat.div_le_self _ _) m.toNat_lt)
      have hhalf : UInt64.ofNat (m.toNat / 2) ∈ ms := by
        rw [h.mem_iff, htoNat]
        exact ⟨by omega, hadmits.1⟩
      refine ⟨_, hhalf, m.toNat.testBit 0, hadmits.2, UInt64.toNat_inj.mp ?_⟩
      rw [toNat_shiftIn (hroom _ hhalf), htoNat, two_mul_half_add_bit]

end ListsRows

theorem listsRows_foldl {bits : List (Option Bool)} (h : bits.length ≤ 64) :
    ListsRows ⟨bits⟩ (bits.foldl Term.extend [0]) := by
  induction bits using List.reverseRecOn with
  | nil => exact .nil
  | append_singleton bits bit ih =>
    rw [List.length_append, List.length_singleton] at h
    rw [List.foldl_append]
    exact (ih (by omega)).extend (by omega) bit

theorem listsRows_minterms {t : Term} (h : t.width ≤ 64) : t.ListsRows t.minterms := by
  have hlists := listsRows_foldl h
  -- The numbers are in order, so there is nothing to sort.
  have hsorted := hlists.ascending.imp fun hlt => decide_eq_true (UInt64.le_of_lt hlt)
  rw [minterms, List.mergeSort_of_pairwise hsorted]
  exact hlists

/-- A term that asks for all values of a row lists this row only. -/
theorem minterms_ofMinterm {m : Minterm} {w : Nat} (hw : w ≤ 64) (hm : m.toNat < rowsOver w) :
    (ofMinterm m w).minterms = [m] := by
  have hwidth : (ofMinterm m w).width = w := by simp [width, ofMinterm]
  have hlists := listsRows_minterms (t := ofMinterm m w) (by rwa [hwidth])
  have hlength : (ofMinterm m w).minterms.length = 1 := by
    rw [hlists.length_eq, ofMinterm, dontCares_map_some, rowsOver_zero]
  have hmem : m ∈ (ofMinterm m w).minterms := by
    rw [hlists.mem_iff, hwidth]
    exact ⟨hm, admits_ofMinterm_iff.mpr rfl⟩
  obtain ⟨m', hm'⟩ := List.length_eq_one_iff.mp hlength
  rw [hm'] at hmem ⊢
  rw [List.mem_singleton.mp hmem]

/-- The rows of a term that is not wider than a word are listed in strictly ascending order. They
are as many as its open positions allow, they exist, and they are exactly the rows that the term
covers. A term that stands for one row lists this row. -/
theorem minterms_outcome {w : Nat} (hw : w ≤ 64) :
    (∀ t : Term, t.width = w →
      t.minterms.Pairwise (· < ·) ∧
      t.minterms.length = rowsOver t.dontCares ∧
      (∀ m ∈ t.minterms, m.toNat < rowsOver w) ∧
      ∀ m : Minterm, m.toNat < rowsOver w → (m ∈ t.minterms ↔ t.covers m = true)) ∧
    ∀ m : Minterm, m.toNat < rowsOver w → (ofMinterm m w).minterms = [m] := by
  refine ⟨fun t ht => ?_, fun m hm => minterms_ofMinterm hw hm⟩
  subst ht
  have hlists := listsRows_minterms hw
  refine ⟨hlists.ascending, hlists.length_eq, fun m hm => ((hlists.mem_iff m).mp hm).1, ?_⟩
  intro m hm
  rw [hlists.mem_iff, covers_iff, and_iff_right hm]

/-- At the limit, a term that leaves the first of `64` positions open and asks for `1` at all others
lists the last row of each half. -/
theorem minterms_outcome_word :
    (⟨none :: List.replicate 63 (some true)⟩ : Term).minterms.length = 2 ∧
      9223372036854775807 ∈ (⟨none :: List.replicate 63 (some true)⟩ : Term).minterms ∧
      18446744073709551615 ∈ (⟨none :: List.replicate 63 (some true)⟩ : Term).minterms ∧
      (ofMinterm 18446744073709551615 64).minterms = [18446744073709551615] := by
  obtain ⟨hterms, hrow⟩ := minterms_outcome (w := 64) (by decide)
  obtain ⟨-, hlength, -, hmem⟩ := hterms ⟨none :: List.replicate 63 (some true)⟩ rfl
  exact ⟨hlength, (hmem _ (by decide)).mpr (by decide +kernel),
    (hmem _ (by decide)).mpr (by decide +kernel), hrow _ (by decide)⟩

end Term

end PrimeForm
