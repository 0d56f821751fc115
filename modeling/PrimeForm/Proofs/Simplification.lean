import Mathlib.Data.List.Perm.Subperm
import PrimeForm.Proofs.SumOfProducts

/-!
# Simplification

The simplified form of a list of rows is settled by the set of the rows: a constant if there is no
row or no other row, and otherwise the ascending list of all prime implicants. Counting distinct
rows is a sound test for the second constant as long as a word can hold the number of rows.

## Main definitions

* `IsFull` — every vector belongs to the rows
* `Simplified` — the simplified form of a list of rows, by cases

## Main results

* `isFull_iff_length` — counting the distinct rows
* `simplify_eq_ok_iff`, `simplify_eq_error_iff` — what simplification returns or refuses
* `Simplified.admits_iff` — a simplified sum is true at the given rows
* `Simplified.eq_constant_false_iff`, `Simplified.eq_constant_true_iff`,
  `Simplified.exists_eq_implicants` — which of the three cases occurs
* `simplify_outcome` — all of this in terms of the rows
-/

namespace PrimeForm

variable {n : Nat} {ms ms' : List Minterm} {names : List Char} {sum : SumOfProducts}

/-! ### Full lists of rows -/

/-- Every vector of values of `n` variables is that of a row. -/
def IsFull (n : Nat) (ms : List Minterm) : Prop :=
  ∀ v : List Bool, v.length = n → v ∈ truePoints n ms

theorem truePoints_congr (h : ∀ m, m ∈ ms ↔ m ∈ ms') : truePoints n ms = truePoints n ms' := by
  simp [truePoints, h]

theorem inRange_congr (h : ∀ m, m ∈ ms ↔ m ∈ ms') : InRange n ms ↔ InRange n ms' := by
  simp [InRange, h]

/-- The bits of a row belong to the given rows exactly when the row does. -/
theorem indexBits_mem_truePoints_iff (h : InRange n ms) {m : Minterm} (hm : m.toNat < rowsOver n) :
    indexBits m.toNat n ∈ truePoints n ms ↔ m ∈ ms := by
  refine ⟨fun ⟨m', hm', hbits⟩ => ?_, fun hmem => ⟨m, hmem, rfl⟩⟩
  rwa [← UInt64.toNat_inj.mp ((indexBits_inj (h m' hm') hm).mp hbits)]

/-- The rows are full when every row is among them, as long as each row has a number. -/
theorem isFull_iff_forall_mem (hn : n < 64) (h : InRange n ms) :
    IsFull n ms ↔ ∀ m : Minterm, m.toNat < rowsOver n → m ∈ ms := by
  constructor
  · intro hfull m hm
    exact (indexBits_mem_truePoints_iff h hm).mp (hfull _ (length_indexBits _ _))
  · intro hall v hv
    obtain ⟨i, hi, hbits⟩ := exists_indexBits_eq v
    rw [hv] at hi hbits
    have hword : rowsOver n ≤ UInt64.size :=
      Nat.pow_le_pow_right (by decide) (Nat.le_of_lt hn)
    have htoNat : (UInt64.ofNat i).toNat = i :=
      UInt64.toNat_ofNat_of_lt' (Nat.lt_of_lt_of_le hi hword)
    exact ⟨.ofNat i, hall _ (by rwa [htoNat]), by rw [htoNat, hbits]⟩

/-- The rows are full when there are as many distinct ones as there are rows at all. -/
theorem isFull_iff_length (h : InRange n ms) :
    IsFull n ms ↔ (distinctRows ms).length = rowsOver n := by
  have hnodup : ((distinctRows ms).map UInt64.toNat).Nodup :=
    (nodup_distinctRows ms).map fun _ _ => UInt64.toNat_inj.mp
  have hsub : (distinctRows ms).map UInt64.toNat ⊆ List.range (rowsOver n) := by
    intro i hi
    obtain ⟨m, hm, rfl⟩ := List.mem_map.mp hi
    exact List.mem_range.mpr (h m (mem_distinctRows.mp hm))
  have hsubperm := List.subperm_of_subset hnodup hsub
  rw [← List.length_map (f := UInt64.toNat), ← List.length_range (n := rowsOver n)]
  constructor
  · intro hfull
    -- Every number below the number of rows occurs, and no number occurs twice.
    refine Nat.le_antisymm hsubperm.length_le (List.subperm_of_subset List.nodup_range ?_).length_le
    intro i hi
    obtain ⟨m, hm, hbits⟩ := hfull (indexBits i n) (length_indexBits i n)
    rw [← (indexBits_inj (h m hm) (List.mem_range.mp hi)).mp hbits]
    exact List.mem_map_of_mem (mem_distinctRows.mpr hm)
  · intro hlen v hv
    -- As many distinct numbers as there are rows leave none out.
    have hperm := hsubperm.perm_of_length_le (Nat.le_of_eq hlen.symm)
    obtain ⟨i, hi, hbits⟩ := exists_indexBits_eq v
    rw [hv] at hi hbits
    obtain ⟨m, hm, rfl⟩ := List.mem_map.mp (hperm.mem_iff.mpr (List.mem_range.mpr hi))
    exact ⟨m, mem_distinctRows.mp hm, hbits⟩

theorem rowCount?_eq_some_length_iff (h : InRange n ms) :
    rowCount? n = some (distinctRows ms).length ↔ n < 64 ∧ IsFull n ms := by
  rw [rowCount?, isFull_iff_length h]
  split
  · rename_i hn
    simp [hn, eq_comm]
  · rename_i hn
    simp [hn]

/-! ### The simplified form -/

/-- The simplified form of the function that is true in the given rows. -/
inductive Simplified (names : List Char) (ms : List Minterm) : SumOfProducts → Prop where
  /-- Without rows the function is the constant `0`. -/
  | empty (hms : ms = []) : Simplified names ms (.constant false)
  /-- With all rows it is the constant `1`, if their number fits into a word. -/
  | full (hms : ms ≠ []) (hlen : names.length < 64) (hfull : IsFull names.length ms) :
    Simplified names ms (.constant true)
  /-- In all other cases it is the disjunction of its prime implicants. -/
  | primes (hms : ms ≠ []) (hfull : ¬(names.length < 64 ∧ IsFull names.length ms))
    {ts : List Term} (hsorted : ts.Pairwise fun s t => compare s t = .lt)
    (hmem : ∀ t : Term, t ∈ ts ↔
      t.width = names.length ∧ t.IsPrimeImplicant (truePoints names.length ms)) :
    Simplified names ms (.implicants names ts)

/-- Rows are accepted exactly when all of them exist, and the result is their simplified form. -/
theorem simplify_eq_ok_iff :
    SumOfProducts.simplify names ms = .ok sum ↔
      InRange names.length ms ∧ Simplified names ms sum := by
  by_cases hrange : InRange names.length ms
  · -- The three cases of the simplified form are the three branches of the computation.
    have hempty : (distinctRows ms).isEmpty = true ↔ ms = [] := by
      simp [List.eq_nil_iff_forall_not_mem]
    simp only [SumOfProducts.simplify, outOfRange?_eq_none_iff.mpr hrange, hempty,
      hrange, true_and]
    split
    · rename_i hms
      refine ⟨fun heq => Except.ok.inj heq ▸ .empty hms, fun h => ?_⟩
      cases h with
      | empty => rfl
      | full hne => exact absurd hms hne
      | primes hne => exact absurd hms hne
    · rename_i hms
      split
      · rename_i hcount
        have hfull := (rowCount?_eq_some_length_iff hrange).mp hcount
        refine ⟨fun heq => Except.ok.inj heq ▸ .full hms hfull.1 hfull.2, fun h => ?_⟩
        cases h with
        | empty hempty => exact absurd hempty hms
        | full => rfl
        | primes _ hnot => exact absurd hfull hnot
      · rename_i hcount
        have hfull := mt (rowCount?_eq_some_length_iff hrange).mpr hcount
        obtain ⟨ts, hok, hsorted, hmem⟩ :=
          exists_primeImplicants_eq_ok ((inRange_congr fun _ => mem_distinctRows).mpr hrange)
        rw [truePoints_congr fun _ => mem_distinctRows] at hmem
        rw [hok, Except.map, Except.ok.injEq]
        refine ⟨fun heq => heq ▸ .primes hms hfull hsorted hmem, fun h => ?_⟩
        cases h with
        | empty hempty => exact absurd hempty hms
        | full _ hlen hall => exact absurd ⟨hlen, hall⟩ hfull
        | primes _ _ hsorted' hmem' =>
          -- A strictly ascending list is determined by its elements.
          have hts := eq_of_pairwise_of_mem_iff hsorted hsorted' fun t => by rw [hmem, hmem']
          rw [hts]
  · obtain ⟨m, hm⟩ := Option.ne_none_iff_exists'.mp (mt outOfRange?_eq_none_iff.mp hrange)
    simp [SumOfProducts.simplify, hm, hrange]

/-- Rows that exist have a simplified form. -/
theorem exists_simplify_eq_ok (hrange : InRange names.length ms) :
    ∃ sum, SumOfProducts.simplify names ms = .ok sum := by
  by_cases hms : ms = []
  · exact ⟨_, simplify_eq_ok_iff.mpr ⟨hrange, .empty hms⟩⟩
  by_cases hfull : names.length < 64 ∧ IsFull names.length ms
  · exact ⟨_, simplify_eq_ok_iff.mpr ⟨hrange, .full hms hfull.1 hfull.2⟩⟩
  · obtain ⟨ts, -, hsorted, hmem⟩ := exists_primeImplicants_eq_ok hrange
    exact ⟨_, simplify_eq_ok_iff.mpr ⟨hrange, .primes hms hfull hsorted hmem⟩⟩

namespace Simplified

variable {v : List Bool}

theorem fits (h : Simplified names ms sum) : sum.Fits names := by
  cases h with
  | empty => trivial
  | full => trivial
  | primes _ _ _ hmem => exact ⟨rfl, fun t ht => ((hmem t).mp ht).1⟩

/-- A simplified sum is true at exactly the vectors of the given rows. -/
theorem admits_iff (h : Simplified names ms sum) (hv : v.length = names.length) :
    sum.Admits v ↔ v ∈ truePoints names.length ms := by
  cases h with
  | empty hms => simp [SumOfProducts.Admits, mem_truePoints, hms]
  | full _ _ hfull => simp [SumOfProducts.Admits, hfull v hv]
  | primes _ _ _ hmem =>
    -- A vector belongs to the set when a prime implicant admits it.
    rw [← Term.exists_isPrimeImplicant_admits_iff, hv]
    exact exists_congr fun t => by rw [hmem]

/-- A simplified sum covers exactly the given rows. -/
theorem covers_iff (h : Simplified names ms sum) (hrange : InRange names.length ms) {m : Minterm}
    (hm : m.toNat < rowsOver names.length) : sum.covers m = true ↔ m ∈ ms := by
  rw [SumOfProducts.covers_iff h.fits, h.admits_iff (length_indexBits _ _),
    indexBits_mem_truePoints_iff hrange hm]

/-! ### The cases of the simplified form -/

theorem eq_constant_false_iff (h : Simplified names ms sum) :
    sum = .constant false ↔ ms = [] := by
  cases h with
  | empty hms => exact iff_of_true rfl hms
  | full hms => simp [hms]
  | primes hms => simp [hms]

theorem eq_constant_true_iff (h : Simplified names ms sum) :
    sum = .constant true ↔ names.length < 64 ∧ IsFull names.length ms := by
  cases h with
  | empty hms =>
    -- Without any row, the vector of the first row is missing.
    refine iff_of_false (by simp) fun ⟨_, hfull⟩ => ?_
    obtain ⟨m, hm, -⟩ := hfull _ (length_indexBits 0 names.length)
    rw [hms] at hm
    cases hm
  | full _ hlen hfull => exact iff_of_true rfl ⟨hlen, hfull⟩
  | primes _ hfull => simp [hfull]

/-- A sum that is no constant has terms, and none of them leaves every position open if the number
of rows fits into a word. -/
theorem exists_eq_implicants (h : Simplified names ms sum) (hsum : ∀ b, sum ≠ .constant b) :
    ∃ ts, sum = .implicants names ts ∧ ts ≠ [] ∧
      (names.length < 64 → ∀ t ∈ ts, t.dontCares < t.width) := by
  cases h with
  | empty => exact absurd rfl (hsum false)
  | full => exact absurd rfl (hsum true)
  | @primes hms hfull ts _ hmem =>
    refine ⟨ts, rfl, fun hnil => ?_, fun hlen t ht => ?_⟩
    · -- Some row is given, and a prime implicant admits it.
      obtain ⟨m, hm⟩ := List.exists_mem_of_ne_nil ms hms
      obtain ⟨t, ⟨hwidth, hprime⟩, -⟩ := Term.exists_isPrimeImplicant_admits_iff.mpr
        (mem_truePoints.mpr ⟨m, hm, rfl⟩ : indexBits m.toNat names.length ∈ _)
      rw [length_indexBits] at hwidth
      exact List.ne_nil_of_mem ((hmem t).mpr ⟨hwidth, hprime⟩) hnil
    · -- A term that is true everywhere would be an implicant of full rows only.
      obtain ⟨hwidth, hprime⟩ := (hmem t).mp ht
      refine Nat.lt_of_le_of_ne t.dontCares_le_width fun hopen => hfull ⟨hlen, fun v hv => ?_⟩
      exact hprime.1 v (Term.admits_of_dontCares_eq_width hopen (hv.trans hwidth.symm))

/-- Lists of the same rows have the same simplified form. -/
theorem congr (h : Simplified names ms sum) (hms : ∀ m, m ∈ ms ↔ m ∈ ms') :
    Simplified names ms' sum := by
  have hnil : ms = [] ↔ ms' = [] := by simp only [List.eq_nil_iff_forall_not_mem, hms]
  have hpoints : truePoints names.length ms = truePoints names.length ms' := truePoints_congr hms
  have hfull : IsFull names.length ms ↔ IsFull names.length ms' := by rw [IsFull, hpoints, IsFull]
  cases h with
  | empty h => exact .empty (hnil.mp h)
  | full h hlen hall => exact .full (mt hnil.mpr h) hlen (hfull.mp hall)
  | primes h hnot hsorted hmem =>
    exact .primes (mt hnil.mpr h) (by rwa [← hfull]) hsorted (by rwa [← hpoints])

end Simplified

/-- Rows are refused when one of them does not exist. -/
theorem simplify_eq_error_iff {e : TermError} :
    SumOfProducts.simplify names ms = .error e ↔
      ∃ m, outOfRange? names.length ms = some m ∧ e = .mintermOutOfRange m names.length := by
  cases hrow : outOfRange? names.length ms with
  | none =>
    obtain ⟨sum, hsum⟩ := exists_simplify_eq_ok (outOfRange?_eq_none_iff.mp hrow)
    simp [hsum]
  | some m => simp [SumOfProducts.simplify, hrow, eq_comm]

/-- Rows are refused when one of them does not exist, which can happen below `64` variables only,
and then the first such row is reported. All other rows have a simplified form. It covers them and
no others, and it is a constant if there is no row or no other row, and otherwise a sum of terms
each of which asks for something. Lists of the same rows have the same simplified form. -/
theorem simplify_outcome (names : List Char) (ms : List Minterm) :
    (∀ e, SumOfProducts.simplify names ms = .error e ↔ names.length < 64 ∧
      ∃ before m after, ms = before ++ m :: after ∧ InRange names.length before ∧
        rowsOver names.length ≤ m.toNat ∧ e = .mintermOutOfRange m names.length) ∧
    ∀ sum, SumOfProducts.simplify names ms = .ok sum →
      (∀ m : Minterm, (names.length < 64 → m.toNat < rowsOver names.length) →
        (sum.covers m = true ↔ m ∈ ms)) ∧
      (sum = .constant false ↔ ms = []) ∧
      (sum = .constant true ↔
        names.length < 64 ∧ ∀ m : Minterm, m.toNat < rowsOver names.length → m ∈ ms) ∧
      ((∀ b, sum ≠ .constant b) → ∃ ts, sum = .implicants names ts ∧ ts ≠ [] ∧
        (names.length < 64 → ∀ t ∈ ts, t.dontCares < t.width)) ∧
      ∀ ms', (∀ m, m ∈ ms' ↔ m ∈ ms) → SumOfProducts.simplify names ms' = .ok sum := by
  refine ⟨fun e => ?_, fun sum hsum => ?_⟩
  · simp only [simplify_eq_error_iff, outOfRange?_eq_some_iff]
    constructor
    · rintro ⟨m, ⟨hlen, hm, before, after, hms, hbefore⟩, he⟩
      exact ⟨hlen, before, m, after, hms, hbefore, hm, he⟩
    · rintro ⟨hlen, before, m, after, hms, hbefore, hm, he⟩
      exact ⟨m, ⟨hlen, hm, before, after, hms, hbefore⟩, he⟩
  · obtain ⟨hrange, h⟩ := simplify_eq_ok_iff.mp hsum
    refine ⟨fun m hm => h.covers_iff hrange ?_, h.eq_constant_false_iff, ?_,
      h.exists_eq_implicants, fun ms' hms => simplify_eq_ok_iff.mpr ⟨?_, ?_⟩⟩
    · exact (Nat.lt_or_ge names.length 64).elim hm fun hlen => toNat_lt_rowsOver hlen m
    · rw [h.eq_constant_true_iff]
      exact and_congr_right fun hlen => isFull_iff_forall_mem hlen hrange
    · exact (inRange_congr hms).mpr hrange
    · exact h.congr fun m => (hms m).symm

end PrimeForm
