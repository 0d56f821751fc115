import PrimeForm.Term

/-!
# Rounds of merging

A round merges the terms of a list with each other. Of two terms that merge, one asks for a single
`1` more than the other. So the terms are put into buckets by their number of ones, and each bucket
is compared with the next one only.

## Main definitions

* `Round` — one round of merging: the terms it starts from, the primes and the mergers
* `Round.buckets` — the terms by their number of ones
* `Findings` — what the comparisons made so far have found
* `Round.ofTerms` — the round that starts from the given terms

## Main results

* `Findings.isAfter_ofPairs` — the findings in terms of the pairs compared
* `Round.isExhaustive_neighbouringPairs` — neighbouring buckets hold all pairs that merge
* `Round.mem_merged_iff`, `Round.primes_eq_filter` — a round in terms of `Term.combine`
-/

namespace PrimeForm

open Std

/-- One round of merging. -/
structure Round where
  /-- The terms that the round starts from. -/
  terms : List Term
  /-- Those of them that merge with none. -/
  primes : List Term
  /-- The distinct mergers of two of them. -/
  merged : List Term
deriving DecidableEq, Repr

/-- A term with its place in the list that a round starts from. -/
abbrev Entry := Term × Nat

/-! ### Findings -/

/-- What the comparisons of a round have found so far. -/
structure Findings where
  /-- The places of the terms that have merged. -/
  used : TreeSet Nat := ∅
  /-- The distinct mergers, the latest first. -/
  mergers : List Term := []
  /-- The same mergers, there to be looked up. -/
  pool : TreeSet Term := ∅

namespace Findings

/-- Compare two terms. If they merge, both are used, and their merger is kept unless it is there
already. -/
def tryMerge (found : Findings) (s t : Entry) : Findings :=
  match s.1.combine t.1 with
  | none => found
  | some c =>
    let used := (found.used.insert s.2).insert t.2
    if found.pool.contains c then { found with used }
    else ⟨used, c :: found.mergers, found.pool.insert c⟩

/-- Compare every term of one bucket with every term of another. -/
def tryMergeAll (found : Findings) (low high : List Entry) : Findings :=
  low.foldl (fun found s => high.foldl (fun found t => found.tryMerge s t) found) found

/-- The findings of a list of comparisons. -/
def ofPairs (pairs : List (Entry × Entry)) : Findings :=
  pairs.foldl (fun found p => found.tryMerge p.1 p.2) {}

/-- The findings are those of the given comparisons: the terms that merged are used, and the
mergers are listed once each. -/
structure IsAfter (pairs : List (Entry × Entry)) (found : Findings) : Prop where
  mem_used_iff : ∀ i, i ∈ found.used ↔
    ∃ p ∈ pairs, (p.1.1.combine p.2.1).isSome ∧ (i = p.1.2 ∨ i = p.2.2)
  mem_mergers_iff : ∀ c, c ∈ found.mergers ↔ ∃ p ∈ pairs, p.1.1.combine p.2.1 = some c
  mem_pool_iff : ∀ c, c ∈ found.pool ↔ c ∈ found.mergers
  nodup : found.mergers.Nodup

variable {found : Findings} {pairs : List (Entry × Entry)}

theorem isAfter_nil : ({} : Findings).IsAfter [] where
  mem_used_iff := by simp
  mem_mergers_iff := by simp
  mem_pool_iff := by simp
  nodup := List.nodup_nil

/-- One comparison. -/
theorem IsAfter.tryMerge (h : found.IsAfter pairs) (s t : Entry) :
    (found.tryMerge s t).IsAfter (pairs ++ [(s, t)]) := by
  -- What holds of one of the pairs holds of an earlier one, or of the last.
  have hlast (P : Entry × Entry → Prop) :
      (∃ p ∈ pairs ++ [(s, t)], P p) ↔ (∃ p ∈ pairs, P p) ∨ P (s, t) := by
    simp only [List.mem_append, List.mem_singleton, or_and_right, exists_or, exists_eq_left]
  cases hc : s.1.combine t.1 with
  | none =>
    have hself : found.tryMerge s t = found := by rw [Findings.tryMerge, hc]
    rw [hself]
    constructor
    · simp [h.mem_used_iff, hc]
    · simp [h.mem_mergers_iff, hc]
    · exact h.mem_pool_iff
    · exact h.nodup
  | some c =>
    have hused (i : Nat) : i ∈ (found.used.insert s.2).insert t.2 ↔
        ∃ p ∈ pairs ++ [(s, t)], (p.1.1.combine p.2.1).isSome ∧ (i = p.1.2 ∨ i = p.2.2) := by
      rw [hlast, mem_insert_iff, mem_insert_iff, h.mem_used_iff, hc]
      simp only [Option.isSome_some, true_and]
      rw [← or_assoc, or_comm, or_comm (a := i = t.2)]
    rw [Findings.tryMerge, hc]
    dsimp only
    split
    · -- A merger that is there already stays where it is.
      rename_i hpool
      have hmem : c ∈ found.mergers := (h.mem_pool_iff c).mp hpool
      refine ⟨hused, fun c' => ?_, h.mem_pool_iff, h.nodup⟩
      rw [hlast, hc, Option.some.injEq, ← h.mem_mergers_iff]
      exact (or_iff_left_of_imp fun heq => heq ▸ hmem).symm
    · rename_i hpool
      have hnew : c ∉ found.mergers := fun hmem => hpool ((h.mem_pool_iff c).mpr hmem)
      refine ⟨hused, fun c' => ?_, fun c' => ?_, List.nodup_cons.mpr ⟨hnew, h.nodup⟩⟩
      · rw [hlast, hc, Option.some.injEq, List.mem_cons, ← h.mem_mergers_iff, or_comm, eq_comm]
      · rw [mem_insert_iff, List.mem_cons, h.mem_pool_iff]

/-- Comparisons that follow others. -/
theorem IsAfter.foldl (h : found.IsAfter pairs) (later : List (Entry × Entry)) :
    (later.foldl (fun found p => found.tryMerge p.1 p.2) found).IsAfter (pairs ++ later) := by
  induction later generalizing found pairs with
  | nil => rwa [List.append_nil]
  | cons p later ih =>
    rw [List.append_cons]
    exact ih (h.tryMerge p.1 p.2)

theorem isAfter_ofPairs (pairs : List (Entry × Entry)) : (ofPairs pairs).IsAfter pairs :=
  isAfter_nil.foldl pairs

end Findings

/-! ### Buckets -/

namespace Round

/-- The most ones of a term, `0` if there is no term. -/
def maxOnes (terms : List Term) : Nat := (terms.map Term.ones).max?.getD 0

/-- The terms with a number of ones. -/
def bucket (terms : List Term) (k : Nat) : List Entry := terms.zipIdx.filter fun s => s.1.ones == k

/-- The terms by their number of ones, from none to the most. -/
def buckets (terms : List Term) : List (List Entry) :=
  (List.range (maxOnes terms + 1)).map (bucket terms)

/-- What comparing each bucket with the next one finds. -/
def findings (terms : List Term) : Findings :=
  let groups := buckets terms
  (groups.zip groups.tail).foldl (fun found pair => found.tryMergeAll pair.1 pair.2) {}

/-- The round of a list with given findings: the terms that have not been used are prime. -/
def ofFindings (terms : List Term) (found : Findings) : Round where
  terms := terms
  primes := (terms.zipIdx.filter fun s => !found.used.contains s.2).map Prod.fst
  merged := found.mergers.reverse

/-- The round that starts from the given terms. -/
def ofTerms (terms : List Term) : Round := ofFindings terms (findings terms)

/-- All comparisons of a round, in the order in which they are made. -/
def neighbouringPairs (terms : List Term) : List (Entry × Entry) :=
  let groups := buckets terms
  (groups.zip groups.tail).flatMap fun pair => pair.1.flatMap fun s => pair.2.map fun t => (s, t)

variable {terms : List Term} {pairs : List (Entry × Entry)} {s t : Entry}

theorem findings_eq_ofPairs (terms : List Term) :
    findings terms = Findings.ofPairs (neighbouringPairs terms) := by
  simp only [findings, Findings.ofPairs, neighbouringPairs, Findings.tryMergeAll,
    List.foldl_flatMap, List.foldl_map]

theorem exists_entry_of_mem {t : Term} (h : t ∈ terms) : ∃ i, (t, i) ∈ terms.zipIdx := by
  simp only [List.mk_mem_zipIdx_iff_getElem?]
  exact List.getElem?_of_mem h

theorem mem_bucket_iff {k : Nat} : s ∈ bucket terms k ↔ s ∈ terms.zipIdx ∧ s.1.ones = k := by
  rw [bucket, List.mem_filter, beq_iff_eq]

theorem ones_le_maxOnes (h : s ∈ terms.zipIdx) : s.1.ones ≤ maxOnes terms :=
  List.le_max?_getD_of_mem (List.mem_map_of_mem (List.fst_mem_of_mem_zipIdx h))

theorem getElem?_buckets {k : Nat} {group : List Entry} :
    (buckets terms)[k]? = some group ↔ k ≤ maxOnes terms ∧ bucket terms k = group := by
  rw [buckets, List.getElem?_map, Option.map_eq_some_iff]
  simp only [List.getElem?_eq_some_iff, List.length_range, List.getElem_range]
  constructor
  · rintro ⟨_, ⟨hk, rfl⟩, rfl⟩
    exact ⟨Nat.le_of_lt_succ hk, rfl⟩
  · rintro ⟨hk, rfl⟩
    exact ⟨k, ⟨Nat.lt_succ_of_le hk, rfl⟩, rfl⟩

/-- Two buckets are neighbours if one of them holds the terms with one `1` more. -/
theorem mem_zip_buckets_iff {low high : List Entry} :
    (low, high) ∈ (buckets terms).zip (buckets terms).tail ↔
      ∃ k, k + 1 ≤ maxOnes terms ∧ bucket terms k = low ∧ bucket terms (k + 1) = high := by
  simp only [List.mem_iff_getElem?, List.getElem?_zip_eq_some, List.getElem?_tail, getElem?_buckets]
  constructor
  · rintro ⟨k, ⟨-, hlow⟩, hk, hhigh⟩
    exact ⟨k, hk, hlow, hhigh⟩
  · rintro ⟨k, hk, hlow, hhigh⟩
    exact ⟨k, ⟨by omega, hlow⟩, hk, hhigh⟩

/-- The terms compared are those of which one has a single `1` more than the other. -/
theorem mem_neighbouringPairs_iff : (s, t) ∈ neighbouringPairs terms ↔
    s ∈ terms.zipIdx ∧ t ∈ terms.zipIdx ∧ t.1.ones = s.1.ones + 1 := by
  simp only [neighbouringPairs, List.mem_flatMap, List.mem_map]
  constructor
  · rintro ⟨⟨low, high⟩, hgroups, s', hs, t', ht, heq⟩
    obtain ⟨k, -, rfl, rfl⟩ := mem_zip_buckets_iff.mp hgroups
    obtain ⟨rfl, rfl⟩ := Prod.mk.inj heq
    rw [mem_bucket_iff] at hs ht
    exact ⟨hs.1, ht.1, by rw [hs.2, ht.2]⟩
  · rintro ⟨hs, ht, hones⟩
    have hle := ones_le_maxOnes ht
    refine ⟨_, mem_zip_buckets_iff.mpr ⟨s.1.ones, by omega, rfl, rfl⟩, s, ?_, t, ?_, rfl⟩
    · exact mem_bucket_iff.mpr ⟨hs, rfl⟩
    · exact mem_bucket_iff.mpr ⟨ht, hones⟩

/-! ### Exhaustive comparisons -/

/-- The comparisons are between terms of the list and leave out no two terms that merge. -/
structure IsExhaustive (terms : List Term) (pairs : List (Entry × Entry)) : Prop where
  mem : ∀ s t, (s, t) ∈ pairs → s ∈ terms.zipIdx ∧ t ∈ terms.zipIdx
  mem_or_mem : ∀ s ∈ terms.zipIdx, ∀ t ∈ terms.zipIdx, ∀ c, s.1.combine t.1 = some c →
    (s, t) ∈ pairs ∨ (t, s) ∈ pairs

/-- Terms that merge lie in neighbouring buckets. -/
theorem isExhaustive_neighbouringPairs (terms : List Term) :
    IsExhaustive terms (neighbouringPairs terms) where
  mem := fun s t h => by
    obtain ⟨hs, ht, -⟩ := mem_neighbouringPairs_iff.mp h
    exact ⟨hs, ht⟩
  mem_or_mem := fun s hs t ht c hc => by
    rcases Term.ones_of_combine hc with hones | hones
    · exact Or.inl (mem_neighbouringPairs_iff.mpr ⟨hs, ht, hones⟩)
    · exact Or.inr (mem_neighbouringPairs_iff.mpr ⟨ht, hs, hones⟩)

namespace IsExhaustive

variable {found : Findings}

/-- Exhaustive comparisons find all mergers of two terms of the list. -/
theorem mem_mergers_iff (h : IsExhaustive terms pairs) (hfound : found.IsAfter pairs) {c : Term} :
    c ∈ found.mergers ↔ ∃ t ∈ terms, ∃ u ∈ terms, t.combine u = some c := by
  rw [hfound.mem_mergers_iff]
  constructor
  · rintro ⟨⟨s, t⟩, hpair, hc⟩
    obtain ⟨hs, ht⟩ := h.mem s t hpair
    exact ⟨s.1, List.fst_mem_of_mem_zipIdx hs, t.1, List.fst_mem_of_mem_zipIdx ht, hc⟩
  · rintro ⟨t, ht, u, hu, hc⟩
    obtain ⟨i, hi⟩ := exists_entry_of_mem ht
    obtain ⟨j, hj⟩ := exists_entry_of_mem hu
    rcases h.mem_or_mem _ hi _ hj c hc with hpair | hpair
    · exact ⟨_, hpair, hc⟩
    · exact ⟨_, hpair, by rw [Term.combine_comm, hc]⟩

/-- Exhaustive comparisons use the terms that merge with some term of the list. -/
theorem mem_used_iff (h : IsExhaustive terms pairs) (hfound : found.IsAfter pairs)
    (hs : s ∈ terms.zipIdx) : s.2 ∈ found.used ↔ ∃ u ∈ terms, (s.1.combine u).isSome := by
  rw [hfound.mem_used_iff]
  -- No other term has the same place.
  have hplace (t : Entry) (ht : t ∈ terms.zipIdx) (heq : s.2 = t.2) : s.1 = t.1 := by
    rw [List.mem_zipIdx_iff_getElem?] at hs ht
    rw [heq, ht] at hs
    exact (Option.some.inj hs).symm
  constructor
  · rintro ⟨⟨t, u⟩, hpair, hsome, heq⟩
    obtain ⟨ht, hu⟩ := h.mem t u hpair
    rcases heq with heq | heq
    · exact ⟨u.1, List.fst_mem_of_mem_zipIdx hu, by rwa [hplace t ht heq]⟩
    · exact ⟨t.1, List.fst_mem_of_mem_zipIdx ht, by rwa [hplace u hu heq, Term.combine_comm]⟩
  · rintro ⟨u, hu, hsome⟩
    obtain ⟨j, hj⟩ := exists_entry_of_mem hu
    obtain ⟨c, hc⟩ := Option.isSome_iff_exists.mp hsome
    rcases h.mem_or_mem s hs _ hj c hc with hpair | hpair
    · exact ⟨_, hpair, hsome, Or.inl rfl⟩
    · exact ⟨_, hpair, by rwa [Term.combine_comm], Or.inr rfl⟩

/-- After exhaustive comparisons, the unused terms are those that merge with no term of the list,
in the order of the list. -/
theorem primes_eq_filter (h : IsExhaustive terms pairs) (hfound : found.IsAfter pairs) :
    (ofFindings terms found).primes =
      terms.filter fun t => decide (∀ u ∈ terms, t.combine u = none) := by
  have hunused (s : Entry) (hs : s ∈ terms.zipIdx) :
      (!found.used.contains s.2) = decide (∀ u ∈ terms, s.1.combine u = none) := by
    rw [Bool.eq_iff_iff, Bool.not_eq_true', Bool.eq_false_iff, ne_eq, TreeSet.contains_iff_mem,
      h.mem_used_iff hfound hs]
    simp
  calc (terms.zipIdx.filter fun s => !found.used.contains s.2).map Prod.fst
      = (terms.zipIdx.filter fun s => decide (∀ u ∈ terms, s.1.combine u = none)).map Prod.fst := by
        rw [List.filter_congr hunused]
    _ = (terms.zipIdx.map Prod.fst).filter fun t => decide (∀ u ∈ terms, t.combine u = none) := by
        rw [List.filter_map, Function.comp_def]
    _ = terms.filter fun t => decide (∀ u ∈ terms, t.combine u = none) := by
        rw [List.zipIdx_map_fst]

end IsExhaustive

/-! ### The outcome of a round -/

theorem isAfter_findings (terms : List Term) :
    (findings terms).IsAfter (neighbouringPairs terms) := by
  rw [findings_eq_ofPairs]
  exact Findings.isAfter_ofPairs _

theorem mem_merged_iff {c : Term} :
    c ∈ (ofTerms terms).merged ↔ ∃ t ∈ terms, ∃ u ∈ terms, t.combine u = some c := by
  rw [ofTerms, ofFindings, List.mem_reverse]
  exact (isExhaustive_neighbouringPairs terms).mem_mergers_iff (isAfter_findings terms)

theorem nodup_merged (terms : List Term) : (ofTerms terms).merged.Nodup :=
  (List.reverse_perm _).symm.nodup (isAfter_findings terms).nodup

theorem primes_eq_filter (terms : List Term) : (ofTerms terms).primes =
    terms.filter fun t => decide (∀ u ∈ terms, t.combine u = none) :=
  (isExhaustive_neighbouringPairs terms).primes_eq_filter (isAfter_findings terms)

theorem mem_primes_iff {t : Term} :
    t ∈ (ofTerms terms).primes ↔ t ∈ terms ∧ ∀ u ∈ terms, t.combine u = none := by
  rw [primes_eq_filter, List.mem_filter, decide_eq_true_eq]

theorem primes_sublist (terms : List Term) : (ofTerms terms).primes.Sublist terms := by
  rw [primes_eq_filter]
  exact List.filter_sublist

end Round

end PrimeForm
