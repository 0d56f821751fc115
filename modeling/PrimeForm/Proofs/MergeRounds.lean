import Mathlib.Data.List.Nodup
import PrimeForm.PrimeImplicants
import PrimeForm.Proofs.Implicant

/-!
# Rounds of merging

A round starts from a level: the implicants of one width with a given number of open positions,
each of them once. The mergers are then the next level, and the terms that merge with none are the
prime implicants on this one. So the rounds climb through all levels above the rows and leave each
prime implicant behind on the level it belongs to.

## Main definitions

* `truePoints` — the vectors of a list of rows
* `IsLevel` — the invariant of the rounds

## Main results

* `IsLevel.merged`, `IsLevel.mem_primes_iff` — one round
* `IsLevel.primesOf` — all rounds
* `primeImplicants_eq_ok_iff` — the result in terms of prime implicants
-/

namespace PrimeForm

open Std

/-- The vectors of the given rows over `n` variables. -/
def truePoints (n : Nat) (ms : List Minterm) : Set (List Bool) :=
  {v | ∃ m ∈ ms, indexBits m.toNat n = v}

theorem mem_truePoints {n : Nat} {ms : List Minterm} {v : List Bool} :
    v ∈ truePoints n ms ↔ ∃ m ∈ ms, indexBits m.toNat n = v :=
  Iff.rfl

/-- The terms are the implicants of a width with a number of open positions, each listed once. -/
structure IsLevel (points : Set (List Bool)) (n k : Nat) (terms : List Term) : Prop where
  nodup : terms.Nodup
  mem_iff : ∀ t : Term, t ∈ terms ↔ t.width = n ∧ t.dontCares = k ∧ t.IsImplicant points

variable {points : Set (List Bool)} {n k : Nat} {terms : List Term}

namespace IsLevel

/-! ### One round -/

/-- The mergers of a level are the next level. Each of its terms is found from its two halves. -/
theorem merged (h : IsLevel points n k terms) :
    IsLevel points n (k + 1) (Round.ofTerms terms).merged where
  nodup := Round.nodup_merged _
  mem_iff := by
    intro c
    rw [Round.mem_merged_iff]
    refine ⟨fun ⟨s, hs, t, ht, hc⟩ => ?_, fun ⟨hwidth, hcount, himp⟩ => ?_⟩
    · -- Both terms are implicants, so the whole of which they are the halves is one.
      obtain ⟨hwidth, hcount, himp⟩ := (h.mem_iff s).mp hs
      have himp' := himp.of_combine ((h.mem_iff t).mp ht).2.2 hc
      obtain ⟨i, b, hi, rfl, rfl⟩ := Term.combine_eq_some_iff.mp hc
      exact ⟨by rw [Term.width_withBit, hwidth],
        by rw [Term.dontCares_withBit_none hi, hcount], himp'⟩
    · -- Any open position of the term shows two halves of it, and both are on this level.
      obtain ⟨i, hi⟩ := Term.exists_open_of_dontCares hcount
      have hlt := Term.lt_width_of_getElem? hi
      have hself := Term.withBit_eq_self hi
      have hhalf (b : Bool) : c.withBit i (some b) ∈ terms := by
        have hfixed := Term.dontCares_withBit_some hi b
        rw [← hself, Term.isImplicant_withBit_none_iff hlt] at himp
        exact (h.mem_iff _).mpr ⟨by rw [Term.width_withBit, hwidth], by omega, himp b⟩
      exact ⟨_, hhalf false, _, hhalf true, by rw [Term.combine_withBit hlt, hself]⟩

/-- The terms of a level that merge with none of its terms are the prime implicants among them. -/
theorem mem_primes_iff (h : IsLevel points n k terms) {t : Term} :
    t ∈ (Round.ofTerms terms).primes ↔ t ∈ terms ∧ t.IsPrimeImplicant points := by
  rw [Round.mem_primes_iff]
  apply and_congr_right
  intro ht
  obtain ⟨hwidth, hcount, himp⟩ := (h.mem_iff t).mp ht
  refine ⟨fun hnone => ⟨himp, fun i b hi hopen => ?_⟩, fun hprime u hu => ?_⟩
  · have hlt := Term.lt_width_of_getElem? hi
    -- If the cube could be enlarged, its other half would be on this level.
    have hother : t.withBit i (some !b) ∈ terms := by
      rw [Term.isImplicant_withBit_none_iff hlt] at hopen
      exact (h.mem_iff _).mpr ⟨by rw [Term.width_withBit, hwidth],
        by rw [Term.dontCares_withBit_flip hi, hcount], hopen _⟩
    have hmerge : t.combine (t.withBit i (some !b)) = some (t.withBit i none) :=
      Term.combine_eq_some_iff.mpr ⟨i, b, hi, rfl, rfl⟩
    rw [hnone _ hother] at hmerge
    cases hmerge
  · apply Option.eq_none_iff_forall_ne_some.mpr
    intro c hc
    -- A merger would be an implicant with one more position open.
    have hopen := himp.of_combine ((h.mem_iff u).mp hu).2.2 hc
    obtain ⟨i, b, hi, rfl, rfl⟩ := Term.combine_eq_some_iff.mp hc
    exact hprime.2 i b hi hopen

/-- An empty level has only empty levels above it. -/
theorem nil_add (h : IsLevel points n k []) (j : Nat) : IsLevel points n (k + j) [] := by
  induction j with
  | zero => exact h
  | succ j ih => exact ih.merged

end IsLevel

/-! ### All rounds -/

theorem merged_singleton (t : Term) : (Round.ofTerms [t]).merged = [] := by
  rw [List.eq_nil_iff_forall_not_mem]
  intro c hc
  obtain ⟨s, hs, u, hu, hmerge⟩ := Round.mem_merged_iff.mp hc
  rw [List.mem_singleton.mp hs, List.mem_singleton.mp hu, Term.combine_self] at hmerge
  cases hmerge

theorem primes_singleton (t : Term) : (Round.ofTerms [t]).primes = [t] := by
  have hprime : t ∈ (Round.ofTerms [t]).primes :=
    Round.mem_primes_iff.mpr ⟨List.mem_singleton_self t, by simp⟩
  have hsub : (Round.ofTerms [t]).primes.Sublist [t] := Round.primes_sublist _
  rcases List.sublist_singleton.mp hsub with hnil | hself
  · rw [hnil] at hprime
    cases hprime
  · exact hself

theorem primesOf_of_length_le (h : terms.length ≤ 1) : primesOf terms = terms := by
  rw [primesOf_eq, rounds_of_length_le h, List.flatMap_nil, List.nil_append, leftAfter]

theorem primesOf_nil : primesOf [] = [] := primesOf_of_length_le (Nat.zero_le 1)

/-- A lone term merges with none, so it might as well enter one more round. -/
theorem primesOf_eq_append (h : terms ≠ []) :
    primesOf terms =
      (Round.ofTerms terms).primes ++ primesOf (Round.ofTerms terms).merged := by
  by_cases hle : terms.length ≤ 1
  · -- The round of a lone term leaves it behind and enters no further round.
    obtain ⟨t, rfl⟩ : ∃ t, terms = [t] := by
      rw [← List.length_eq_one_iff]
      have := List.length_pos_iff.mpr h
      omega
    rw [merged_singleton, primes_singleton, primesOf_of_length_le hle,
      primesOf_nil, List.append_nil]
  · rw [primesOf_eq, rounds_eq_cons hle, List.flatMap_cons, leftAfter, List.append_assoc,
      ← primesOf_eq]

namespace IsLevel

/-- From a level on, the rounds leave behind the prime implicants on it and above it, each once. -/
theorem primesOf (h : IsLevel points n k terms) :
    (primesOf terms).Nodup ∧ ∀ t : Term,
      t ∈ primesOf terms ↔ t.width = n ∧ k ≤ t.dontCares ∧ t.IsPrimeImplicant points := by
  induction hw : weight terms using Nat.strongRecOn generalizing terms k with
  | ind w ih =>
    by_cases hne : terms = []
    · subst hne
      rw [primesOf_nil]
      refine ⟨List.nodup_nil, fun t =>
        ⟨fun ht => absurd ht List.not_mem_nil, fun ⟨hwidth, hle, hprime⟩ => ?_⟩⟩
      -- A prime implicant above would belong to a level above, but these are empty as well.
      have hmem := (h.nil_add (t.dontCares - k)).mem_iff t
      exact absurd (hmem.mpr ⟨hwidth, by omega, hprime.1⟩) List.not_mem_nil
    · obtain ⟨hnodup, hmem⟩ := ih _ (hw ▸ weight_merged_lt hne) h.merged rfl
      rw [primesOf_eq_append hne]
      constructor
      · -- What later rounds leave behind has more open positions.
        refine List.nodup_append.mpr ⟨(Round.primes_sublist _).nodup h.nodup, hnodup, ?_⟩
        intro t ht u hu htu
        subst htu
        have hcount := ((h.mem_iff t).mp (h.mem_primes_iff.mp ht).1).2.1
        have hlater := ((hmem t).mp hu).2.1
        omega
      · intro t
        rw [List.mem_append, hmem, h.mem_primes_iff, h.mem_iff]
        refine ⟨fun h => ?_, fun ⟨hwidth, hle, hprime⟩ => ?_⟩
        · rcases h with ⟨⟨hwidth, hcount, -⟩, hprime⟩ | ⟨hwidth, hle, hprime⟩
          · exact ⟨hwidth, by omega, hprime⟩
          · exact ⟨hwidth, by omega, hprime⟩
        · -- The term belongs to this level, or to one of those above it.
          rcases Nat.eq_or_lt_of_le hle with heq | hlt
          · exact Or.inl ⟨⟨hwidth, heq.symm, hprime.1⟩, hprime⟩
          · exact Or.inr ⟨hwidth, hlt, hprime⟩

end IsLevel

/-! ### Rows -/

/-- The rows exist over `n` variables. -/
def InRange (n : Nat) (ms : List Minterm) : Prop := ∀ m ∈ ms, m.toNat < rowsOver n

/-- All words are numbers of rows where there are at least as many variables as bits in a word. -/
theorem toNat_lt_rowsOver (hn : 64 ≤ n) (m : Minterm) : m.toNat < rowsOver n :=
  Nat.lt_of_lt_of_le m.toNat_lt (Nat.pow_le_pow_right (by decide) hn)

theorem outOfRange?_eq_none_iff {ms : List Minterm} :
    outOfRange? n ms = none ↔ InRange n ms := by
  unfold outOfRange? rowCount? InRange
  split
  · simp [List.find?_eq_none]
  · rename_i hn
    simp only [Option.bind_none, true_iff]
    exact fun m _ => toNat_lt_rowsOver (Nat.le_of_not_lt hn) m

/-- The row that is reported is the first one that does not exist. -/
theorem outOfRange?_eq_some_iff {ms : List Minterm} {m : Minterm} :
    outOfRange? n ms = some m ↔ n < 64 ∧ rowsOver n ≤ m.toNat ∧
      ∃ before after, ms = before ++ m :: after ∧ InRange n before := by
  unfold outOfRange? rowCount? InRange
  split
  · rename_i hn
    simp [hn, List.find?_eq_some_iff_append]
  · rename_i hn
    simp [hn]

/-- The rows are the lowest level: no position is open. -/
theorem isLevel_rowTerms {ms : List Minterm} (h : InRange n ms) :
    IsLevel (truePoints n ms) n 0 (rowTerms n ms) where
  nodup := by
    refine List.Nodup.map_on (fun m hm m' hm' heq => ?_) (nodup_distinctRows ms)
    rw [mem_distinctRows] at hm hm'
    -- Rows in range are told apart by their bits.
    have hbits : indexBits m.toNat n = indexBits m'.toNat n :=
      List.map_injective_iff.mpr (fun _ _ => Option.some.inj) (congrArg Term.bits heq)
    exact UInt64.toNat_inj.mp ((indexBits_inj (h m hm) (h m' hm')).mp hbits)
  mem_iff := by
    intro t
    simp only [rowTerms, List.mem_map, mem_distinctRows]
    refine ⟨fun h => ?_, fun h => ?_⟩
    · obtain ⟨m, hm, rfl⟩ := h
      refine ⟨by simp [Term.width, Term.ofMinterm], Term.dontCares_map_some _, fun v hv => ?_⟩
      exact ⟨m, hm, Term.admits_ofMinterm_iff.mp hv⟩
    · obtain ⟨hwidth, hcount, himp⟩ := h
      -- Without open positions, the cube of a term is a single vector.
      obtain ⟨v, rfl⟩ := Term.exists_eq_map_some hcount
      obtain ⟨m, hm, rfl⟩ := himp v (Term.admits_map_some_iff.mpr rfl)
      exact ⟨m, hm, rfl⟩

/-- Rows that exist over `n` variables are accepted, and the result is the strictly ascending list
of the prime implicants of the set of their vectors. -/
theorem exists_primeImplicants_eq_ok {ms : List Minterm} (h : InRange n ms) :
    ∃ ts, primeImplicants n ms = .ok ts ∧ ts.Pairwise (fun s t => compare s t = .lt) ∧
      ∀ t : Term, t ∈ ts ↔ t.width = n ∧ t.IsPrimeImplicant (truePoints n ms) := by
  obtain ⟨hnodup, hmem⟩ := (isLevel_rowTerms h).primesOf
  refine ⟨(primesOf (rowTerms n ms)).mergeSort fun s t => (compare s t).isLE, ?_, ?_, ?_⟩
  · rw [primeImplicants, outOfRange?_eq_none_iff.mpr h]
  · exact pairwise_mergeSort_of_nodup hnodup
  · intro t
    rw [List.mem_mergeSort, hmem]
    -- The rows are the lowest level, so the primes of all levels are there.
    simp

/-- The rows are accepted exactly when all of them exist, and the result is then the strictly
ascending list of the prime implicants of the set of their vectors. -/
theorem primeImplicants_eq_ok_iff (n : Nat) (ms : List Minterm) (ts : List Term) :
    primeImplicants n ms = .ok ts ↔
      InRange n ms ∧ ts.Pairwise (fun s t => compare s t = .lt) ∧
        ∀ t : Term, t ∈ ts ↔ t.width = n ∧ t.IsPrimeImplicant (truePoints n ms) := by
  by_cases hrange : InRange n ms
  · obtain ⟨primes, hok, hsorted, hmem⟩ := exists_primeImplicants_eq_ok hrange
    rw [hok, Except.ok.injEq]
    refine ⟨fun heq => heq ▸ ⟨hrange, hsorted, hmem⟩, fun ⟨_, hascending, hall⟩ => ?_⟩
    · apply eq_of_pairwise_of_mem_iff hsorted hascending
      intro t
      rw [hmem, hall]
  · -- The first row out of range is the reason for the refusal.
    obtain ⟨m, hm⟩ := Option.ne_none_iff_exists'.mp (mt outOfRange?_eq_none_iff.mp hrange)
    rw [primeImplicants, hm]
    simp [hrange]

end PrimeForm
