import PrimeForm.Proofs.SumOfProducts
import PrimeForm.Proofs.TruthTable

/-!
# Products of literals

The literals of a term name the variables it fixes, so they mean the same beside other variables.
A term and the list of its literals are prime for a formula at the same time, and terms over
ascending names are ordered as their lists of literals are. Therefore the prime implicants of a
formula, as lists of literals, do not depend on the variables that the terms have positions for,
and neither does their order.

## Main definitions

* `Product` — literals in a list
* `Product.Implies`, `Product.IsPrime` — implicants of a formula, without positions
* `Product.compare` — the order of terms, without positions

## Main results

* `Term.isPrimeImplicant_iff` — a term is prime when the product of its literals is
* `Product.IsPrime.mem_names` — a prime product mentions variables of the formula only
* `Product.IsPrime.exists_literals_eq` — every ascending prime product is that of a term
* `Term.compare_eq_compare_literals` — terms are ordered by their literals
-/

namespace PrimeForm

open Std SumOfProducts

/-- Literals side by side, each a name with the value it is given. -/
abbrev Product := List (Char × Bool)

namespace Product

/-- All literals are true under the valuation. -/
def Holds (L : Product) (ν : Char → Bool) : Prop := ∀ l ∈ L, ν l.1 = l.2

/-- The formula is true wherever the product is. -/
def Implies (L : Product) (φ : Formula) : Prop := ∀ ν, L.Holds ν → φ.value ν = true

/-- The product implies the formula, and it no longer does without any one of its literals. -/
def IsPrime (L : Product) (φ : Formula) : Prop :=
  L.Implies φ ∧ ∀ l ∈ L, ¬ Implies (L.filter fun l' => l' ≠ l) φ

/-- The names of the literals ascend. -/
def Ascending (L : Product) : Prop := L.Pairwise fun l l' => compareOn Prod.fst l l' = .lt

/-- Literals are compared by their names, later names first, and then by their values. -/
def compareLiteral : Char × Bool → Char × Bool → Ordering :=
  compareLex (fun l l' => compareOn Prod.fst l' l) (compareOn Prod.snd)

/-- Products are compared literal by literal. -/
protected def compare : Product → Product → Ordering := List.compareLex compareLiteral

instance : TransCmp compareLiteral := inferInstanceAs (TransCmp (compareLex _ _))

instance : TransCmp Product.compare := inferInstanceAs (TransCmp (List.compareLex _))

variable {φ : Formula} {L L' : Product} {ν : Char → Bool} {x : Char} {b c : Bool}

theorem implies_congr (h : ∀ l, l ∈ L ↔ l ∈ L') : L.Implies φ ↔ L'.Implies φ := by
  apply forall_congr'
  intro ν
  exact imp_congr_left (forall_congr' fun l => imp_congr_left (h l))

/-- A name occurs in an ascending product with one value only. -/
theorem Ascending.value_unique (h : L.Ascending) (hb : (x, b) ∈ L) (hc : (x, c) ∈ L) : b = c := by
  have hnames : (L.map Prod.fst).Pairwise fun x y => compare x y = .lt := List.pairwise_map.mpr h
  exact (Prod.mk.inj (List.inj_on_of_nodup_map (nodup_of_pairwise hnames) hb hc rfl)).2

theorem Ascending.lookup_eq_some_iff (h : L.Ascending) : L.lookup x = some b ↔ (x, b) ∈ L := by
  have hmem (c : Bool) (hc : L.lookup x = some c) : (x, c) ∈ L := by
    obtain ⟨before, after, rfl, -⟩ := List.lookup_eq_some_iff.mp hc
    exact List.mem_append_right before List.mem_cons_self
  refine ⟨hmem b, fun hb => ?_⟩
  obtain ⟨c, hc⟩ :=
    Option.isSome_iff_exists.mp (List.lookup_isSome_iff.mpr ⟨_, hb, beq_self_eq_true x⟩)
  rw [hc, h.value_unique (hmem c hc) hb]

/-- A prime product mentions variables of the formula only. -/
theorem IsPrime.mem_names (h : L.IsPrime φ) (hasc : L.Ascending) {l : Char × Bool} (hl : l ∈ L) :
    l.1 ∈ φ.names := by
  by_contra hx
  -- Whatever value the variable has, the formula cannot tell it from the one that is asked for.
  apply h.2 l hl
  intro ν hν
  have hvalue : φ.value (Function.update ν l.1 l.2) = φ.value ν := by
    apply Formula.value_congr
    intro y hy
    exact Function.update_of_ne (ne_of_mem_of_not_mem hy hx) _ _
  rw [← hvalue]
  apply h.1
  intro l' hl'
  -- Literals of the variable get their value by force, and all others have it anyway.
  by_cases heq : l'.1 = l.1
  · have hsame : l'.2 = l.2 := hasc.value_unique hl' (x := l'.1) (heq ▸ hl)
    rw [heq, Function.update_self, hsame]
  · rw [Function.update_of_ne heq]
    refine hν l' (List.mem_filter.mpr ⟨hl', ?_⟩)
    simpa using fun hsame => heq (congrArg Prod.fst hsame)

end Product

/-! ### The literals of a term -/

section Literals

variable {names : List Char} {bits : List (Option Bool)} {x : Char} {b : Bool} {t : Term}

@[simp] theorem literals_cons_none :
    literals (x :: names) ⟨none :: bits⟩ = literals names ⟨bits⟩ := rfl

@[simp] theorem literals_cons_some :
    literals (x :: names) ⟨some b :: bits⟩ = (x, b) :: literals names ⟨bits⟩ := rfl

theorem mem_literals_iff :
    (x, b) ∈ literals names t ↔ ∃ i : Nat, names[i]? = some x ∧ t.bits[i]? = some (some b) := by
  rw [literals, List.mem_filterMap]
  simp only [List.mem_iff_getElem?, List.getElem?_zip_eq_some, Prod.exists,
    Option.map_eq_some_iff, Prod.mk.injEq]
  refine ⟨fun h => ?_, fun h => ?_⟩
  · obtain ⟨y, bit, ⟨i, hname, hbit⟩, c, rfl, rfl, rfl⟩ := h
    exact ⟨i, hname, hbit⟩
  · obtain ⟨i, hname, hbit⟩ := h
    exact ⟨x, some b, ⟨i, hname, hbit⟩, b, rfl, rfl, rfl⟩

/-- Every fixed position gives a literal. -/
theorem exists_mem_literals (hwidth : t.width = names.length) {i : Nat}
    (hbit : t.bits[i]? = some (some b)) :
    ∃ x, names[i]? = some x ∧ (x, b) ∈ literals names t := by
  have hname := List.getElem?_eq_getElem (hwidth ▸ Term.lt_width_of_getElem? hbit)
  exact ⟨_, hname, mem_literals_iff.mpr ⟨i, hname, hbit⟩⟩

/-- A term leaves every position open when it has no literals. -/
theorem literals_eq_nil_iff (hwidth : t.width = names.length) :
    literals names t = [] ↔ t.dontCares = t.width := by
  rw [Term.dontCares, Term.width, List.count_eq_length, List.eq_nil_iff_forall_not_mem]
  refine ⟨fun hnone bit hmem => ?_, fun hopen l hl => ?_⟩
  · cases bit with
    | none => rfl
    | some b =>
      obtain ⟨i, hbit⟩ := List.getElem?_of_mem hmem
      obtain ⟨x, -, hliteral⟩ := exists_mem_literals hwidth hbit
      exact absurd hliteral (hnone (x, b))
  · obtain ⟨i, -, hbit⟩ := mem_literals_iff.mp hl
    cases hopen _ (List.mem_of_getElem? hbit)

/-- Opening a position takes the literal of the position away. -/
theorem mem_literals_withBit_none_iff (hnodup : names.Nodup) {i : Nat} (hname : names[i]? = some x)
    (hbit : t.bits[i]? = some (some b)) (l : Char × Bool) :
    l ∈ literals names (t.withBit i none) ↔
      l ∈ (literals names t).filter fun l' => l' ≠ (x, b) := by
  obtain ⟨y, c⟩ := l
  rw [List.mem_filter, mem_literals_iff, mem_literals_iff]
  simp only [Term.withBit, decide_eq_true_eq]
  refine ⟨fun h => ?_, fun h => ?_⟩
  · obtain ⟨j, hy, hc⟩ := h
    by_cases hij : i = j
    · -- The opened position asks for nothing any more.
      subst hij
      have hnone := Term.getElem?_withBit (Term.lt_width_of_getElem? hbit) none
      rw [Term.withBit, hc] at hnone
      cases hnone
    · rw [List.getElem?_set_ne hij] at hc
      refine ⟨⟨j, hy, hc⟩, fun heq => hij ?_⟩
      -- The names differ from each other.
      have hlt := (List.getElem?_eq_some_iff.mp hname).1
      rw [(Prod.mk.inj heq).1] at hy
      exact (List.getElem?_inj hlt hnodup).mp (hname.trans hy.symm)
  · obtain ⟨⟨j, hy, hc⟩, hne⟩ := h
    have hij : i ≠ j := by
      intro heq
      subst heq
      rw [hname, Option.some.injEq] at hy
      rw [hbit, Option.some.injEq, Option.some.injEq] at hc
      exact hne (by rw [hy, hc])
    exact ⟨j, hy, by rwa [List.getElem?_set_ne hij]⟩

/-- Over ascending names, the literals of a term ascend. -/
theorem ascending_literals (h : names.Pairwise fun x y => compare x y = .lt) :
    Product.Ascending (literals names t) := by
  obtain ⟨bits⟩ := t
  induction names generalizing bits with
  | nil => exact .nil
  | cons x names ih =>
    obtain ⟨hlt, hrest⟩ := List.pairwise_cons.mp h
    cases bits with
    | nil => exact .nil
    | cons bit bits =>
      cases bit with
      | none => exact ih hrest bits
      | some b =>
        apply List.pairwise_cons.mpr
        refine ⟨fun l hl => ?_, ih hrest bits⟩
        exact hlt l.1 (mem_names_of_mem_literals hl)

/-- A product whose names all come later than a name precedes those that start with the name. -/
theorem Product.compare_cons_eq_lt {L L' : Product} (h : ∀ l ∈ L, compare x l.1 = .lt) :
    Product.compare L ((x, b) :: L') = .lt := by
  cases L with
  | nil => exact List.compareLex_nil_cons
  | cons l L =>
    -- Later names come first in the order of literals.
    rw [Product.compare, List.compareLex_cons_cons, compareLiteral, compareLex, compareOn,
      h l List.mem_cons_self]
    rfl

/-- Over ascending names, terms are ordered by their literals. -/
theorem Term.compare_eq_compare_literals (h : names.Pairwise fun x y => compare x y = .lt)
    {s t : Term} (hs : s.width = names.length) (ht : t.width = names.length) :
    compare s t = Product.compare (literals names s) (literals names t) := by
  obtain ⟨as⟩ := s
  obtain ⟨bs⟩ := t
  rw [Term.compare_eq]
  simp only [Term.width] at hs ht ⊢
  induction names generalizing as bs with
  | nil =>
    rw [List.length_eq_zero_iff.mp hs, List.length_eq_zero_iff.mp ht]
    rfl
  | cons x names ih =>
    obtain ⟨hlt, hrest⟩ := List.pairwise_cons.mp h
    have hlater (cs : List (Option Bool)) : ∀ l ∈ literals names ⟨cs⟩, compare x l.1 = .lt :=
      fun l hl => hlt l.1 (mem_names_of_mem_literals hl)
    cases as with
    | nil => cases hs
    | cons p as =>
      cases bs with
      | nil => cases ht
      | cons q bs =>
        specialize ih hrest as (Nat.succ.inj hs) bs (Nat.succ.inj ht)
        rw [List.compare_cons_cons]
        cases p with
        -- A position that only one of the terms leaves open decides in favour of this term.
        | none =>
          cases q with
          | none => exact ih
          | some c =>
            rw [literals_cons_none, literals_cons_some, Product.compare_cons_eq_lt (hlater as)]
            rfl
        | some b =>
          cases q with
          | none =>
            rw [literals_cons_none, literals_cons_some,
              OrientedCmp.gt_iff_lt.mpr (Product.compare_cons_eq_lt (hlater bs))]
            rfl
          | some c =>
            -- The names are equal, so the values decide, or else the rest does.
            rw [literals_cons_some, literals_cons_some, Product.compare, List.compareLex_cons_cons,
              Product.compareLiteral, compareLex, compareOn, compareOn, ReflOrd.compare_self, ih]
            rfl

/-! ### Prime implicants as products -/

variable {points : Set (List Bool)} {φ : Formula}

/-- Names that differ from each other can be given any values. -/
theorem exists_map_eq (hnodup : names.Nodup) {v : List Bool} (hv : v.length = names.length) :
    ∃ ν : Char → Bool, names.map ν = v := by
  obtain ⟨i, -, hi⟩ := exists_indexBits_eq v
  exact ⟨TruthTable.rowValuation names i, by rw [TruthTable.map_rowValuation hnodup, ← hv, hi]⟩

section Points

-- The set consists of the values that the names have where the formula is true.
variable (hnodup : names.Nodup) (hpoints : ∀ ν, names.map ν ∈ points ↔ φ.value ν = true)
include hnodup hpoints

theorem Term.isImplicant_iff (hwidth : t.width = names.length) :
    t.IsImplicant points ↔ Product.Implies (literals names t) φ := by
  refine ⟨fun h ν hν => ?_, fun h v hv => ?_⟩
  · exact (hpoints ν).mp (h _ ((forall_literals_iff hwidth).mp hν))
  · -- Every vector in the cube is the list of values under some valuation.
    obtain ⟨ν, rfl⟩ := exists_map_eq hnodup (hv.length_eq.trans hwidth)
    exact (hpoints ν).mpr (h ν ((forall_literals_iff hwidth).mpr hv))

/-- A term is a prime implicant when the product of its literals is prime. -/
theorem Term.isPrimeImplicant_iff (hwidth : t.width = names.length) :
    t.IsPrimeImplicant points ↔ Product.IsPrime (literals names t) φ := by
  have hopen (i : Nat) : (t.withBit i none).IsImplicant points ↔
      Product.Implies (literals names (t.withBit i none)) φ :=
    Term.isImplicant_iff hnodup hpoints ((Term.width_withBit _).trans hwidth)
  rw [Term.IsPrimeImplicant, Term.isImplicant_iff hnodup hpoints hwidth, Product.IsPrime]
  apply and_congr_right
  intro _
  simp only [hopen]
  -- Opening a position and leaving out its literal come to the same.
  refine ⟨fun h l hl hrest => ?_, fun h i b hbit himp => ?_⟩
  · obtain ⟨i, hname, hbit⟩ := mem_literals_iff.mp hl
    have hiff := mem_literals_withBit_none_iff hnodup hname hbit
    exact h i l.2 hbit ((Product.implies_congr hiff).mpr hrest)
  · obtain ⟨x, hname, hliteral⟩ := exists_mem_literals hwidth hbit
    have hiff := mem_literals_withBit_none_iff hnodup hname hbit
    exact h (x, b) hliteral ((Product.implies_congr hiff).mp himp)

end Points

/-- Every ascending product over the names lists the literals of a term. -/
theorem Product.Ascending.exists_literals_eq {L : Product} (h : L.Ascending)
    (hnames : names.Pairwise fun x y => compare x y = .lt) (hmem : ∀ l ∈ L, l.1 ∈ names) :
    ∃ t : Term, t.width = names.length ∧ literals names t = L := by
  -- The term has at each position the value that the product gives to the name, if any.
  refine ⟨⟨names.map fun x => L.lookup x⟩, List.length_map _, ?_⟩
  apply eq_of_pairwise_of_mem_iff (ascending_literals hnames) h
  intro (x, b)
  rw [mem_literals_iff, ← h.lookup_eq_some_iff]
  simp only [List.getElem?_map, Option.map_eq_some_iff]
  refine ⟨fun ⟨i, hx, y, hy, hb⟩ => ?_, fun hb => ?_⟩
  · rw [hx, Option.some.injEq] at hy
    rwa [hy]
  · obtain ⟨i, hi⟩ := List.getElem?_of_mem (hmem (x, b) (h.lookup_eq_some_iff.mp hb))
    exact ⟨i, hi, x, hi, hb⟩

end Literals

end PrimeForm
