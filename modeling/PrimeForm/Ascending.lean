import Std.Data.TreeSet

/-!
# Ascending lists

The distinct elements of a list, smallest first. Variables, rows of a truth table and product
terms are all listed in this way.

## Main definitions

* `ascending` — the distinct elements of a list in ascending order

## Main results

* `mem_ascending` — nothing is lost and nothing is added
* `pairwise_ascending` — the order is strict
* `eq_of_pairwise_of_mem_iff` — a strictly ascending list is determined by its elements
* `pairwise_mergeSort_of_nodup` — sorting elements that differ from each other makes them strictly
  ascending
-/

namespace PrimeForm

open Std

/-- The distinct elements of a list in ascending order. -/
def ascending {α : Type} [Ord α] (l : List α) : List α := (TreeSet.ofList l compare).toList

variable {α : Type}

/-! ### Strictly ascending lists -/

section Pairwise

variable {cmp : α → α → Ordering} [TransCmp cmp] {l l' : List α}

theorem nodup_of_pairwise (h : l.Pairwise fun a b => cmp a b = .lt) : l.Nodup := by
  refine h.imp fun {a b} hab => ?_
  rintro rfl
  have hself : cmp a a = .eq := ReflCmp.compare_self
  rw [hself] at hab
  cases hab

/-- A strictly ascending list is determined by its elements. -/
theorem eq_of_pairwise_of_mem_iff (h : l.Pairwise fun a b => cmp a b = .lt)
    (h' : l'.Pairwise fun a b => cmp a b = .lt) (hmem : ∀ a, a ∈ l ↔ a ∈ l') : l = l' := by
  have hperm : l.Perm l' :=
    (List.perm_ext_iff_of_nodup (nodup_of_pairwise h) (nodup_of_pairwise h')).mpr hmem
  -- The order is strict, so no two elements precede each other.
  have hstrict (a b : α) (hab : cmp a b = .lt) (hba : cmp b a = .lt) : a = b :=
    (OrientedCmp.not_lt_of_lt hab hba).elim
  exact hperm.eq_of_pairwise (fun a b _ _ => hstrict a b) h h'

end Pairwise

/-! ### Lists without repetitions -/

/-- Removing repetitions leaves none. -/
theorem nodup_eraseDups [BEq α] [LawfulBEq α] (l : List α) : l.eraseDups.Nodup := by
  match l with
  | [] => simp
  | a :: l =>
    rw [List.eraseDups_cons, List.nodup_cons]
    refine ⟨?_, nodup_eraseDups (l.filter fun b => !b == a)⟩
    simp [List.mem_eraseDups]
termination_by l.length
decreasing_by exact Nat.lt_succ_of_le (List.length_filter_le _ l)

/-- Sorting elements that differ from each other makes them strictly ascending. -/
theorem pairwise_mergeSort_of_nodup [Ord α] [TransOrd α] [LawfulEqOrd α] {l : List α}
    (h : l.Nodup) :
    (l.mergeSort fun a b => (compare a b).isLE).Pairwise fun a b => compare a b = .lt := by
  have htrans (a b c : α) (hab : (compare a b).isLE) (hbc : (compare b c).isLE) :
      (compare a c).isLE := TransOrd.isLE_trans hab hbc
  have htotal (a b : α) : (compare a b).isLE || (compare b a).isLE := by
    rw [OrientedOrd.eq_swap (a := a)]
    cases compare b a <;> rfl
  have hle := List.pairwise_mergeSort htrans htotal l
  have hne : (l.mergeSort fun a b => (compare a b).isLE).Nodup :=
    (List.mergeSort_perm l _).symm.nodup h
  refine hle.imp₂ (fun a b hab hdiff => ?_) hne
  rcases Ordering.isLE_iff_eq_lt_or_eq_eq.mp hab with hlt | heq
  · exact hlt
  · exact absurd (LawfulEqOrd.eq_of_compare heq) hdiff

/-! ### The distinct elements of a list -/

variable [Ord α] [TransOrd α]

theorem pairwise_ascending (l : List α) :
    (ascending l).Pairwise fun a b => compare a b = .lt :=
  TreeSet.ordered_toList

@[simp] theorem mem_ascending [LawfulEqOrd α] [BEq α] [LawfulBEq α] {a : α} {l : List α} :
    a ∈ ascending l ↔ a ∈ l := by
  rw [ascending, TreeSet.mem_toList, TreeSet.mem_ofList, List.contains_iff_mem]

/-- The elements of a set after one of them has been put in. -/
theorem mem_insert_iff [LawfulEqOrd α] {pool : TreeSet α} {a b : α} :
    b ∈ pool.insert a ↔ b = a ∨ b ∈ pool := by
  rw [TreeSet.mem_insert, LawfulEqOrd.compare_eq_iff_eq, eq_comm]

/-- Lists with the same elements have the same ascending list. -/
theorem ascending_congr [LawfulEqOrd α] [BEq α] [LawfulBEq α] {l l' : List α}
    (h : ∀ a, a ∈ l ↔ a ∈ l') : ascending l = ascending l' :=
  eq_of_pairwise_of_mem_iff (pairwise_ascending l) (pairwise_ascending l') fun a => by
    rw [mem_ascending, mem_ascending, h]

end PrimeForm
