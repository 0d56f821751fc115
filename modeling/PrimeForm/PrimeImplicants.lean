import PrimeForm.Round

/-!
# Prime implicants

The prime implicants of a function given by the rows in which it is true. Terms are merged in
rounds: the terms that merge with no other are prime, and the mergers enter the next round, until
at most one term is left. No prime is dropped for being covered by others.

## Main definitions

* `rounds` — all rounds that a list of terms goes through
* `leftAfter`, `primesOf` — what is left after all rounds, and the primes of all of them
* `outOfRange?`, `distinctRows` — the rows of a list, checked and without repetitions
* `primeImplicants` — the prime implicants of a list of rows, sorted

## Main results

* `weight_merged_lt` — every round makes the terms shorter
* `mem_distinctRows`, `nodup_distinctRows` — no row is lost, and none is repeated
-/

namespace PrimeForm

open Std

/-! ### Rounds -/

/-- A bound on the number of rounds: one more than the most fixed positions of a term. -/
def weight (terms : List Term) : Nat := terms.foldr (fun t n => max (t.fixed + 1) n) 0

theorem lt_weight_iff {terms : List Term} {n : Nat} :
    n < weight terms ↔ ∃ t ∈ terms, n ≤ t.fixed := by
  induction terms with
  | nil => simp [weight]
  | cons t terms ih =>
    have : weight (t :: terms) = max (t.fixed + 1) (weight terms) := rfl
    rw [this]
    simp only [List.mem_cons, exists_eq_or_imp, ← ih]
    omega

theorem weight_merged_lt {terms : List Term} (h : terms ≠ []) :
    weight (Round.ofTerms terms).merged < weight terms := by
  rw [lt_weight_iff]
  rcases hw : weight (Round.ofTerms terms).merged with _ | n
  · obtain ⟨t, ht⟩ := List.exists_mem_of_ne_nil terms h
    exact ⟨t, ht, Nat.zero_le _⟩
  · obtain ⟨c, hc, hn⟩ := lt_weight_iff.1 (show n < weight (Round.ofTerms terms).merged by omega)
    obtain ⟨s, hs, u, _, hsu⟩ := Round.mem_merged_iff.1 hc
    have := Term.fixed_of_combine hsu
    exact ⟨s, hs, by omega⟩

/-- The rounds that a list of terms goes through. A round takes place as long as more than one
term is left. -/
def rounds (terms : List Term) : List Round :=
  if terms.length ≤ 1 then []
  else Round.ofTerms terms :: rounds (Round.ofTerms terms).merged
termination_by weight terms
decreasing_by exact weight_merged_lt (by rintro rfl; simp_all)

/-- The terms that are left when the rounds are over: the mergers of the last round, or the terms
from which the first round would have started. -/
def leftAfter (terms : List Term) : List Round → List Term
  | [] => terms
  | round :: later => leftAfter round.merged later

/-- The terms that merge with none in the round they enter, from the first round to the last, and
the term that is left over, if there is one. -/
def primesOf (terms : List Term) : List Term :=
  let trace := rounds terms
  trace.flatMap Round.primes ++ leftAfter terms trace

theorem rounds_of_length_le {terms : List Term} (h : terms.length ≤ 1) : rounds terms = [] := by
  rw [rounds, if_pos h]

theorem rounds_eq_cons {terms : List Term} (h : ¬ terms.length ≤ 1) :
    rounds terms = Round.ofTerms terms :: rounds (Round.ofTerms terms).merged := by
  rw [rounds, if_neg h]

theorem primesOf_eq (terms : List Term) :
    primesOf terms = (rounds terms).flatMap Round.primes ++ leftAfter terms (rounds terms) := rfl

/-! ### Rows -/

/-- The first row, if any, that does not exist over `n` variables. -/
def outOfRange? (n : Nat) (ms : List Minterm) : Option Minterm :=
  (rowCount? n).bind fun rows => ms.find? fun m => rows ≤ m.toNat

/-- Take the rows of a list that have not been taken yet. Those taken so far are listed with the
latest first, and the pool is there to look them up. -/
def distinctFrom (pool : TreeSet Minterm) (taken : List Minterm) : List Minterm → List Minterm
  | [] => taken.reverse
  | m :: ms =>
    if pool.contains m then distinctFrom pool taken ms
    else distinctFrom (pool.insert m) (m :: taken) ms

/-- The rows of a list, each at the place where it is mentioned first. -/
def distinctRows (ms : List Minterm) : List Minterm := distinctFrom ∅ [] ms

section Distinct

variable {pool : TreeSet Minterm} {taken ms : List Minterm} {m : Minterm}

theorem mem_insert_iff_mem_cons (h : ∀ m, m ∈ pool ↔ m ∈ taken) (a m : Minterm) :
    m ∈ pool.insert a ↔ m ∈ a :: taken := by
  rw [mem_insert_iff, h, List.mem_cons]

theorem mem_distinctFrom_iff (h : ∀ m, m ∈ pool ↔ m ∈ taken) :
    m ∈ distinctFrom pool taken ms ↔ m ∈ taken ∨ m ∈ ms := by
  induction ms generalizing pool taken with
  | nil => simp [distinctFrom]
  | cons a ms ih =>
    rw [distinctFrom]
    split
    · -- A row that is left out has been taken before.
      rename_i hpool
      have hmem : m = a → m ∈ taken := fun heq => heq ▸ (h a).mp hpool
      rw [ih h, List.mem_cons, ← or_assoc, or_iff_left_of_imp hmem]
    · rw [ih (mem_insert_iff_mem_cons h a), List.mem_cons, List.mem_cons, or_left_comm, or_assoc]

theorem nodup_distinctFrom (h : ∀ m, m ∈ pool ↔ m ∈ taken) (htaken : taken.Nodup) :
    (distinctFrom pool taken ms).Nodup := by
  induction ms generalizing pool taken with
  | nil => exact (List.reverse_perm taken).symm.nodup htaken
  | cons a ms ih =>
    rw [distinctFrom]
    split
    · exact ih h htaken
    · rename_i hpool
      have hnew : a ∉ taken := fun hmem => hpool ((h a).mpr hmem)
      exact ih (mem_insert_iff_mem_cons h a) (List.nodup_cons.mpr ⟨hnew, htaken⟩)

@[simp] theorem mem_distinctRows : m ∈ distinctRows ms ↔ m ∈ ms := by
  rw [distinctRows, mem_distinctFrom_iff (by simp)]
  simp

theorem nodup_distinctRows (ms : List Minterm) : (distinctRows ms).Nodup :=
  nodup_distinctFrom (by simp) List.nodup_nil

end Distinct

/-- The given rows, each as the term that is true in it only. -/
def rowTerms (n : Nat) (ms : List Minterm) : List Term :=
  (distinctRows ms).map fun m => Term.ofMinterm m n

/-- The prime implicants of the function over `n` variables that is true in the given rows, in
ascending order; or the first row that does not exist. -/
def primeImplicants (n : Nat) (ms : List Minterm) : Except TermError (List Term) :=
  match outOfRange? n ms with
  | some m => .error (.mintermOutOfRange m n)
  | none => .ok ((primesOf (rowTerms n ms)).mergeSort fun s t => (compare s t).isLE)

end PrimeForm
