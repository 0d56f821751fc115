import PrimeForm.Proofs.Implicant
import PrimeForm.Round

/-!
# A round against all pairs

Comparing neighbouring buckets is a short cut. This file sets it against the plain way to merge the
terms of a list, which compares every term with every later one: both leave the same primes behind,
in the same order, and find the same mergers, each of them once.

## Main definitions

* `everyPair` — every element of a list with every later one
* `Round.allPairs` — the round that makes all comparisons

## Main results

* `Round.isExhaustive_everyPair` — no two terms that merge are left out
* `Round.ofTerms_outcome` — the outcome of a round in terms of all pairs
-/

namespace PrimeForm

/-- Every element of a list with every later one. -/
def everyPair {α : Type} : List α → List (α × α)
  | [] => []
  | a :: later => later.map (fun b => (a, b)) ++ everyPair later

theorem mem_of_mem_everyPair {α : Type} {l : List α} {a b : α} (h : (a, b) ∈ everyPair l) :
    a ∈ l ∧ b ∈ l := by
  induction l with
  | nil => cases h
  | cons d later ih =>
    rcases List.mem_append.mp h with hhead | hlater
    · obtain ⟨b', hb, heq⟩ := List.mem_map.mp hhead
      obtain ⟨rfl, rfl⟩ := Prod.mk.inj heq
      exact ⟨List.mem_cons_self, List.mem_cons_of_mem _ hb⟩
    · obtain ⟨ha, hb⟩ := ih hlater
      exact ⟨List.mem_cons_of_mem _ ha, List.mem_cons_of_mem _ hb⟩

/-- Of two elements, one is later than the other. -/
theorem mem_everyPair_or_mem_everyPair {α : Type} {l : List α} {a b : α} (ha : a ∈ l) (hb : b ∈ l)
    (hne : a ≠ b) : (a, b) ∈ everyPair l ∨ (b, a) ∈ everyPair l := by
  induction l with
  | nil => cases ha
  | cons d later ih =>
    simp only [everyPair, List.mem_append, List.mem_map, Prod.mk.injEq]
    rcases List.mem_cons.mp ha with rfl | ha'
    · have hb' := (List.mem_cons.mp hb).resolve_left hne.symm
      exact Or.inl (Or.inl ⟨b, hb', rfl, rfl⟩)
    · rcases List.mem_cons.mp hb with rfl | hb'
      · exact Or.inr (Or.inl ⟨a, ha', rfl, rfl⟩)
      · exact (ih ha' hb').imp Or.inr Or.inr

namespace Round

variable {terms : List Term}

/-- The round that compares every term with every later one. -/
def allPairs (terms : List Term) : Round :=
  ofFindings terms (Findings.ofPairs (everyPair terms.zipIdx))

theorem isExhaustive_everyPair (terms : List Term) :
    IsExhaustive terms (everyPair terms.zipIdx) where
  mem := fun _ _ h => mem_of_mem_everyPair h
  mem_or_mem := fun s hs t ht c hc => by
    -- A term that merges with another is not the same term.
    have hne : s ≠ t := by
      rintro rfl
      rw [Term.combine_self] at hc
      cases hc
    exact mem_everyPair_or_mem_everyPair hs ht hne

theorem primes_allPairs (terms : List Term) :
    (allPairs terms).primes = (ofTerms terms).primes := by
  rw [primes_eq_filter]
  exact (isExhaustive_everyPair terms).primes_eq_filter (Findings.isAfter_ofPairs _)

/-- Both rounds find the mergers of any two terms, and list each of them once. -/
theorem merged_perm_allPairs (terms : List Term) :
    (ofTerms terms).merged.Perm (allPairs terms).merged := by
  have hall := Findings.isAfter_ofPairs (everyPair terms.zipIdx)
  have hnodup : (allPairs terms).merged.Nodup := (List.reverse_perm _).symm.nodup hall.nodup
  refine (List.perm_ext_iff_of_nodup (nodup_merged terms) hnodup).mpr fun c => ?_
  rw [mem_merged_iff, allPairs, ofFindings, List.mem_reverse,
    (isExhaustive_everyPair terms).mem_mergers_iff hall]

/-- A round leaves behind what comparing all pairs leaves behind, namely the terms that merge with
no term of the list, in the order of the list. It finds the same mergers as well, namely those of
any two terms of the list, and each of them once. -/
theorem ofTerms_outcome (terms : List Term) :
    ((ofTerms terms).primes = (allPairs terms).primes ∧
      (ofTerms terms).merged.Perm (allPairs terms).merged) ∧
    (ofTerms terms).primes = (terms.filter fun t => decide (∀ u ∈ terms, t.combine u = none)) ∧
    (ofTerms terms).merged.Nodup ∧
    ∀ c, c ∈ (ofTerms terms).merged ↔ ∃ t ∈ terms, ∃ u ∈ terms, t.combine u = some c :=
  ⟨⟨(primes_allPairs terms).symm, merged_perm_allPairs terms⟩, primes_eq_filter terms,
    nodup_merged terms, fun _ => mem_merged_iff⟩

end Round

end PrimeForm
