import PrimeForm.Journal
import PrimeForm.Proofs.MergeRounds

/-!
# The rounds of a list of rows

The rounds that the rows of a function go through climb its levels one by one: the first round
starts from the rows, which leave no position open, and each round starts from the implicants with
one position more open than in the round before. On the highest level there is room for one term
only, and a lone term enters no round. So there are at most as many rounds as variables.

## Main results

* `IsLevel.getElem?_rounds` — every round starts from a level
* `IsLevel.length_rounds_le` — the number of rounds
* `length_leftAfter_rounds_le` — what is left over at the end
* `rounds_outcome` — the rounds of a list of rows
-/

namespace PrimeForm

variable {points : Set (List Bool)} {n k : Nat} {terms : List Term}

/-! ### The rounds one by one -/

/-- A round is that of the terms it starts from, and these are more than one. -/
theorem of_mem_rounds {round : Round} (h : round ∈ rounds terms) :
    round = Round.ofTerms round.terms ∧ 1 < round.terms.length := by
  induction terms using rounds.induct with
  | case1 terms hle =>
    rw [rounds_of_length_le hle] at h
    cases h
  | case2 terms hlt ih =>
    rw [rounds_eq_cons hlt] at h
    rcases List.mem_cons.mp h with rfl | hlater
    · exact ⟨rfl, Nat.lt_of_not_le hlt⟩
    · exact ih hlater

/-- At most one term is left after the last round. -/
theorem length_leftAfter_rounds_le (terms : List Term) :
    (leftAfter terms (rounds terms)).length ≤ 1 := by
  induction terms using rounds.induct with
  | case1 terms hle =>
    rw [rounds_of_length_le hle]
    exact hle
  | case2 terms hlt ih =>
    rw [rounds_eq_cons hlt]
    exact ih

/-! ### Levels -/

namespace IsLevel

/-- From a level on, every round starts from the next level. -/
theorem getElem?_rounds (h : IsLevel points n k terms) {i : Nat} {round : Round}
    (hi : (rounds terms)[i]? = some round) : IsLevel points n (k + i) round.terms := by
  induction terms using rounds.induct generalizing k i with
  | case1 terms hle =>
    rw [rounds_of_length_le hle] at hi
    cases hi
  | case2 terms hlt ih =>
    rw [rounds_eq_cons hlt] at hi
    cases i with
    | zero =>
      cases hi
      exact h
    | succ i =>
      have hnext := ih h.merged hi
      rwa [Nat.add_assoc, Nat.add_comm 1] at hnext

/-- Only one term leaves all positions open. -/
theorem length_le_one (h : IsLevel points n n terms) : terms.length ≤ 1 := by
  have hall : ∀ t ∈ terms, t = ⟨List.replicate n none⟩ := by
    intro t ht
    obtain ⟨hwidth, hopen, -⟩ := (h.mem_iff t).mp ht
    have hnone := List.count_eq_length.mp (hopen.trans hwidth.symm)
    exact congrArg Term.mk
      (List.eq_replicate_iff.mpr ⟨hwidth, fun bit hbit => (hnone bit hbit).symm⟩)
  have hnodup := h.nodup
  rwa [List.eq_replicate_of_mem hall, List.nodup_replicate] at hnodup

/-- A round on the level of the variables would start from more than one term. -/
theorem length_rounds_le (h : IsLevel points n 0 terms) : (rounds terms).length ≤ n := by
  by_contra hlt
  have hround := List.getElem?_eq_getElem (Nat.lt_of_not_le hlt)
  have hlevel := h.getElem?_rounds hround
  rw [Nat.zero_add] at hlevel
  have hmore := (of_mem_rounds (List.mem_of_getElem? hround)).2
  exact absurd hlevel.length_le_one (Nat.not_le_of_lt hmore)

end IsLevel

/-! ### The rounds of a list of rows -/

/-- The records count the rounds from `1`. -/
theorem Journal.ofRounds_eq_map (terms : List Term) :
    ofRounds terms = ((rounds terms).zipIdx 1).map fun entry => ofRound entry.2 entry.1 := by
  rw [ofRounds, List.zipIdx_succ, List.map_map]
  rfl

theorem of_primeImplicants_eq_ok {ms : List Minterm} {ts : List Term}
    (h : primeImplicants n ms = .ok ts) :
    outOfRange? n ms = none ∧
      ts = (primesOf (rowTerms n ms)).mergeSort fun s t => (compare s t).isLE := by
  rw [primeImplicants] at h
  split at h
  · cases h
  · exact ⟨‹_›, (Except.ok.inj h).symm⟩

/-- Rows that are accepted over `n` variables go through at most `n` rounds. Round number `k`,
counted from `1` as in its record, starts from the terms of width `n` with `k - 1` open positions
all of whose vectors belong to the rows, and lists each of them once. The prime implicants are what
the rounds leave behind, with the term that is left over at the end, if there is one. -/
theorem rounds_outcome {ms : List Minterm} {ts : List Term} (h : primeImplicants n ms = .ok ts) :
    (rounds (rowTerms n ms)).length ≤ n ∧
    (∀ (round : Round) (k : Nat), (round, k) ∈ (rounds (rowTerms n ms)).zipIdx 1 →
      round = Round.ofTerms round.terms ∧ round.terms.Nodup ∧
      ∀ t : Term, t ∈ round.terms ↔
        t.width = n ∧ t.dontCares = k - 1 ∧ t.IsImplicant (truePoints n ms)) ∧
    Journal.ofPrimes n ms =
      (((rounds (rowTerms n ms)).zipIdx 1).map fun entry => Journal.ofRound entry.2 entry.1) ∧
    ∃ rest : List Term, rest.length ≤ 1 ∧
      ts = ((rounds (rowTerms n ms)).flatMap Round.primes ++ rest).mergeSort
        fun s t => (compare s t).isLE := by
  obtain ⟨hnone, hts⟩ := of_primeImplicants_eq_ok h
  have hlevel := isLevel_rowTerms (outOfRange?_eq_none_iff.mp hnone)
  refine ⟨hlevel.length_rounds_le, fun round k hround => ?_, ?_, _,
    length_leftAfter_rounds_le (rowTerms n ms), hts⟩
  · obtain ⟨-, hget⟩ := List.mk_mem_zipIdx_iff_le_and_getElem?_sub.mp hround
    have hstart := hlevel.getElem?_rounds hget
    rw [Nat.zero_add] at hstart
    exact ⟨(of_mem_rounds (List.mem_of_getElem? hget)).1, hstart.nodup, hstart.mem_iff⟩
  · rw [Journal.ofPrimes, hnone, Journal.ofRounds_eq_map]

/-- The rows in which an implication is true go through as many rounds as there are variables: the
second one starts from all implicants with one open position and merges nothing. -/
theorem rounds_outcome_implication :
    ∃ (ts : List Term) (first second : Round), primeImplicants 2 [0, 1, 3] = .ok ts ∧
      rounds (rowTerms 2 [0, 1, 3]) = [first, second] ∧ second.merged = [] ∧
      ∀ t : Term, t ∈ second.terms ↔
        t.width = 2 ∧ t.dontCares = 1 ∧ t.IsImplicant (truePoints 2 [0, 1, 3]) := by
  have hrange : InRange 2 [0, 1, 3] := outOfRange?_eq_none_iff.mp (by decide)
  obtain ⟨ts, hts, -⟩ := exists_primeImplicants_eq_ok hrange
  obtain ⟨-, hlevel, -⟩ := rounds_outcome hts
  have hrounds : rounds (rowTerms 2 [0, 1, 3]) =
      [Round.ofTerms (rowTerms 2 [0, 1, 3]),
        Round.ofTerms (Round.ofTerms (rowTerms 2 [0, 1, 3])).merged] := by
    rw [rounds_eq_cons (by decide), rounds_eq_cons (by decide), rounds_of_length_le (by decide)]
  refine ⟨ts, _, _, hts, hrounds, by decide, (hlevel _ 2 ?_).2.2⟩
  rw [hrounds]
  exact List.mem_cons_of_mem _ List.mem_cons_self

end PrimeForm
