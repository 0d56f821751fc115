import Mathlib.Data.List.Nodup
import Mathlib.Data.List.Perm.Subperm
import PrimeForm.Formula.Evaluation
import PrimeForm.Formula.Variables
import PrimeForm.Proofs.Outcome

/-!
# The listed variables of a formula

The variables of a formula are listed once each, so sorting them is all that their list needs to
ascend strictly.

## Main results

* `Formula.sortedNames_eq_ok_iff`, `Formula.sortedNames_eq_ok_iff_perm` — when the variables are
  listed, and how
* `Formula.pairwise_compare_of_sortedNames`, `Formula.mem_of_sortedNames` — the list that results
* `length_le_maxVariables` — there are no more of them than the alphabet has letters
-/

namespace PrimeForm

namespace Formula

variable {φ : Formula} {names : List Char}

/-- The variables are listed exactly when all of them are lowercase letters. -/
theorem sortedNames_eq_ok_iff :
    φ.sortedNames = .ok names ↔ (∀ x ∈ φ.names, x.isLower = true) ∧
      names = φ.names.mergeSort fun x y => (compare x y).isLE := by
  rw [sortedNames]
  split
  · rename_i x p hfind
    have hmem : x ∈ φ.names := mem_names_iff.mpr ⟨p, List.mem_of_find?_eq_some hfind⟩
    have hupper := List.find?_some hfind
    simp only [reduceCtorEq, false_iff, not_and]
    intro hlower
    simp [hlower x hmem] at hupper
  · rename_i hfind
    have hlower : ∀ x ∈ φ.names, x.isLower = true := by
      intro x hx
      obtain ⟨p, hp⟩ := mem_names_iff.mp hx
      simpa using List.find?_eq_none.mp hfind _ hp
    rw [Except.ok.injEq]
    exact ⟨fun heq => ⟨hlower, heq.symm⟩, fun h => h.2.symm⟩

/-- The list is the one arrangement of the variables that ascends strictly. -/
theorem sortedNames_eq_ok_iff_perm :
    φ.sortedNames = .ok names ↔ (∀ x ∈ φ.names, x.isLower = true) ∧
      (names.Pairwise fun x y => compare x y = .lt) ∧ names.Perm φ.names := by
  have hsort := pairwise_mergeSort_of_nodup φ.nodup_names
  rw [sortedNames_eq_ok_iff]
  refine and_congr_right fun _ => ⟨?_, fun ⟨hsorted, hperm⟩ => ?_⟩
  · rintro rfl
    exact ⟨hsort, List.mergeSort_perm _ _⟩
  · apply eq_of_pairwise_of_mem_iff hsorted hsort
    intro x
    rw [hperm.mem_iff, List.mem_mergeSort]

end Formula

/-- Different lowercase letters are not more than a truth table has columns. -/
theorem length_le_maxVariables {names : List Char} (hnodup : names.Nodup)
    (hlower : ∀ x ∈ names, x.isLower = true) : names.length ≤ maxVariables := by
  have hcodes : (names.map Char.toNat).Nodup :=
    hnodup.map fun x y hcode => Char.toNat_inj.mp hcode
  have hrange : names.map Char.toNat ⊆ List.range' 97 maxVariables := by
    intro n hn
    obtain ⟨x, hx, rfl⟩ := List.mem_map.mp hn
    obtain ⟨hlow, hhigh⟩ := Bool.and_eq_true_iff.mp (hlower x hx)
    rw [List.mem_range'_1]
    exact ⟨UInt32.le_iff_toNat_le.mp (of_decide_eq_true hlow),
      Nat.lt_succ_of_le (UInt32.le_iff_toNat_le.mp (of_decide_eq_true hhigh))⟩
  have hlength := (List.subperm_of_subset hcodes hrange).length_le
  rwa [List.length_map, List.length_range'] at hlength

namespace Formula

section Listed

variable {φ : Formula} {names : List Char} {x : Char} (h : φ.sortedNames = .ok names)
include h

theorem pairwise_compare_of_sortedNames : names.Pairwise fun x y => compare x y = .lt :=
  (sortedNames_eq_ok_iff_perm.mp h).2.1

theorem nodup_of_sortedNames : names.Nodup := nodup_of_pairwise (pairwise_compare_of_sortedNames h)

theorem mem_of_sortedNames : x ∈ names ↔ x ∈ φ.names :=
  (sortedNames_eq_ok_iff_perm.mp h).2.2.mem_iff

theorem isLower_of_sortedNames (hx : x ∈ names) : x.isLower = true :=
  (sortedNames_eq_ok_iff.mp h).1 x ((mem_of_sortedNames h).mp hx)

theorem length_le_of_sortedNames : names.length ≤ maxVariables :=
  length_le_maxVariables (nodup_of_sortedNames h) fun _ => isLower_of_sortedNames h

end Listed

end Formula

end PrimeForm
