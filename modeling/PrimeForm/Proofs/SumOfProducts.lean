import PrimeForm.Proofs.MergeRounds
import PrimeForm.Proofs.TruthTable
import PrimeForm.SumOfProducts

/-!
# The function of a sum of products

A sum over some variables is true at a vector of truth values if it is the constant `1` or if one
of its terms admits the vector. Both ways to use a sum agree with this: the rows it covers are
those with such a vector of bits, and the formula it stands for is true under the valuations that
give the variables such a vector of values. Sums can be put together from any terms, and are true
where one of these is.

## Main definitions

* `SumOfProducts.Fits` — every term has a position for each of the variables
* `SumOfProducts.Admits` — the sum is true at a vector

## Main results

* `SumOfProducts.covers_iff`, `SumOfProducts.value_toFormula_iff` — rows and formulas
* `SumOfProducts.eval_toFormula` — both of them at the same row
* `SumOfProducts.eval_toFormula_ofTerms` — sums of given terms
-/

namespace PrimeForm

namespace Term

variable {t : Term} {m : Minterm}

/-- A term is true in the rows whose bits it admits. -/
theorem covers_iff : t.covers m = true ↔ t.Admits (indexBits m.toNat t.width) := by
  have hlen : t.bits.length = (indexBits m.toNat t.width).length := (length_indexBits _ _).symm
  simp only [covers, Admits, List.forall₂_iff_zip, hlen, true_and, List.all_eq_true, Prod.forall]
  refine forall₂_congr fun bit value => imp_congr_right fun _ => ?_
  cases bit <;> simp

/-- A vector belongs to a set exactly when a prime implicant of the set admits it. -/
theorem exists_isPrimeImplicant_admits_iff {points : Set (List Bool)} {v : List Bool} :
    (∃ t : Term, (t.width = v.length ∧ t.IsPrimeImplicant points) ∧ t.Admits v) ↔
      v ∈ points := by
  refine ⟨fun ⟨t, ⟨_, hprime⟩, hv⟩ => hprime.1 v hv, fun hv => ?_⟩
  · -- The vector itself, as a term without open positions, is an implicant.
    have himp : (⟨v.map some⟩ : Term).IsImplicant points := by
      intro w hw
      rwa [← admits_map_some_iff.mp hw]
    obtain ⟨t, hprime, hwidth, ht⟩ :=
      exists_isPrimeImplicant_of_isImplicant himp (admits_map_some_iff.mpr rfl)
    exact ⟨t, ⟨hwidth.trans (List.length_map _), hprime⟩, ht⟩

end Term

namespace Formula

variable {ν : Char → Bool}

theorem value_chain_or (fs : List Formula) :
    (chain .or (.literal false) fs).value ν = fs.any fun φ => φ.value ν := by
  induction fs with
  | nil => rfl
  | cons φ fs ih =>
    cases fs with
    | nil => simp [chain]
    | cons ψ rest => rw [chain, join, value, ih]; rfl

theorem value_chain_and (fs : List Formula) :
    (chain .and (.literal true) fs).value ν = fs.all fun φ => φ.value ν := by
  induction fs with
  | nil => rfl
  | cons φ fs ih =>
    cases fs with
    | nil => simp [chain]
    | cons ψ rest => rw [chain, join, value, ih]; rfl

/-- A chain mentions the variables of its links, or of the unit if there is no link. -/
theorem mem_names_chain {op : Connective} {unit : Formula} {fs : List Formula} {x : Char}
    (h : x ∈ (chain op unit fs).names) : x ∈ unit.names ∨ ∃ φ ∈ fs, x ∈ φ.names := by
  induction fs with
  | nil => exact Or.inl h
  | cons φ fs ih =>
    -- The last link stands alone, and all others stand under the connective.
    cases fs with
    | nil => exact Or.inr ⟨φ, List.mem_singleton_self φ, h⟩
    | cons ψ rest =>
      rw [chain, join, mem_names_binary] at h
      rcases h with hφ | hrest
      · exact Or.inr ⟨φ, List.mem_cons_self, hφ⟩
      · exact (ih hrest).imp_right fun ⟨χ, hχ, hx⟩ => ⟨χ, List.mem_cons_of_mem φ hχ, hx⟩

end Formula

namespace SumOfProducts

variable {names : List Char} {ms : List Minterm} {sum : SumOfProducts} {t : Term}
  {ν : Char → Bool} {v : List Bool}

/-- The terms of the sum have a position for each of the variables. -/
def Fits (names : List Char) : SumOfProducts → Prop
  | constant _ => True
  | implicants names' ts => names' = names ∧ ∀ t ∈ ts, t.width = names.length

/-- The sum is true at a vector of values of its variables. -/
def Admits : SumOfProducts → List Bool → Prop
  | constant b, _ => b = true
  | implicants _ ts, v => ∃ t ∈ ts, t.Admits v

theorem covers_iff (h : sum.Fits names) {m : Minterm} :
    sum.covers m = true ↔ sum.Admits (indexBits m.toNat names.length) := by
  cases sum with
  | constant b => exact Iff.rfl
  | implicants names' ts =>
    simp only [covers, Admits, List.any_eq_true]
    exact exists_congr fun t => and_congr_right fun ht => by rw [Term.covers_iff, h.2 t ht]

/-! ### The formula of a sum -/

/-- The literals of a term hold exactly where the term admits the values of the variables. -/
theorem forall_literals_iff (h : t.width = names.length) :
    (∀ literal ∈ literals names t, ν literal.1 = literal.2) ↔ t.Admits (names.map ν) := by
  obtain ⟨bits⟩ := t
  simp only [Term.width, Term.Admits, literals] at h ⊢
  induction names generalizing bits with
  | nil => simp [List.length_eq_zero_iff.mp h]
  | cons x names ih =>
    cases bits with
    | nil => cases h
    | cons bit bits =>
      rw [List.map_cons, List.forall₂_cons, ← ih bits (Nat.succ.inj h)]
      -- An open position adds no literal, and a fixed one adds the literal that it asks for.
      cases bit with
      | none => simp
      | some b =>
        have hcomm : some b = some (ν x) ↔ ν x = b := by rw [Option.some.injEq, eq_comm]
        simp [hcomm]

theorem value_literalFormula (literal : Char × Bool) :
    (literalFormula literal).value ν = (ν literal.1 == literal.2) := by
  obtain ⟨x, b⟩ := literal
  cases b <;> simp [literalFormula, Formula.ofName, Formula.value]

theorem value_productFormula (h : t.width = names.length) :
    (productFormula names t).value ν = true ↔ t.Admits (names.map ν) := by
  rw [← forall_literals_iff h, productFormula, Formula.value_chain_and]
  simp [value_literalFormula]

/-- The formula of a sum is true where the sum is. -/
theorem value_toFormula_iff (h : sum.Fits names) :
    sum.toFormula.value ν = true ↔ sum.Admits (names.map ν) := by
  cases sum with
  | constant b => exact Iff.rfl
  | implicants names' ts =>
    obtain ⟨rfl, hwidth⟩ := h
    simp only [toFormula, Formula.value_chain_or, Admits, List.any_map, List.any_reverse,
      List.any_eq_true, Function.comp_apply]
    exact exists_congr fun t => and_congr_right fun ht => value_productFormula (hwidth t ht)

theorem mem_names_of_mem_literals {literal : Char × Bool} (h : literal ∈ literals names t) :
    literal.1 ∈ names := by
  obtain ⟨⟨x, bit⟩, hcolumn, hbit⟩ := List.mem_filterMap.mp h
  obtain ⟨b, -, rfl⟩ := Option.map_eq_some_iff.mp hbit
  exact (List.of_mem_zip hcolumn).1

theorem mem_names_of_productFormula {x : Char} (hx : x ∈ (productFormula names t).names) :
    x ∈ names := by
  rcases Formula.mem_names_chain hx with hunit | ⟨φ, hφ, hx⟩
  · exact absurd hunit Formula.mem_names_literal
  · obtain ⟨⟨y, b⟩, hliteral, rfl⟩ := List.mem_map.mp hφ
    have hxy : x = y := by
      cases b <;> simpa [literalFormula, Formula.ofName] using hx
    exact hxy ▸ mem_names_of_mem_literals hliteral

/-- The formula of a sum mentions its variables only. -/
theorem mem_names_of_toFormula (h : sum.Fits names) {x : Char} (hx : x ∈ sum.toFormula.names) :
    x ∈ names := by
  cases sum with
  | constant b => simp [toFormula] at hx
  | implicants names' ts =>
    obtain ⟨rfl, -⟩ := h
    rcases Formula.mem_names_chain hx with hunit | ⟨φ, hφ, hx⟩
    · exact absurd hunit Formula.mem_names_literal
    · obtain ⟨t, -, rfl⟩ := List.mem_map.mp hφ
      exact mem_names_of_productFormula hx

/-- In every row, the formula of a sum has the value that says whether the sum covers the row. -/
theorem eval_toFormula (h : sum.Fits names) (hnodup : names.Nodup) (m : Minterm) :
    sum.toFormula.eval (TruthTable.assignment names m.toNat) = .ok (sum.covers m) := by
  have hcovers : sum.toFormula.value (TruthTable.rowValuation names m.toNat) = sum.covers m := by
    rw [Bool.eq_iff_iff, value_toFormula_iff h, TruthTable.map_rowValuation hnodup, covers_iff h]
  rw [TruthTable.eval_assignment hnodup fun x => mem_names_of_toFormula h, hcovers]

/-! ### Sums of given terms -/

section OfTerms

variable {ts ts' : List Term}

/-- Terms can be put together if each of them has a position for every variable. -/
theorem ofTerms_eq_ok_iff :
    ofTerms names ts = .ok sum ↔ (∀ t ∈ ts, t.width = names.length) ∧
      sum = if ts.isEmpty then .constant false else .implicants names (ascending ts) := by
  have hfind : (ts.find? fun t => t.width ≠ names.length) = none ↔
      ∀ t ∈ ts, t.width = names.length := by
    simp
  rw [ofTerms, ← hfind]
  split
  · rename_i t ht
    simp only [ht, reduceCtorEq, false_and]
  · rename_i hnone
    simp only [hnone, true_and, Except.ok.injEq]
    exact eq_comm

/-- A sum of given terms has terms of the right width only. -/
theorem fits_of_ofTerms (h : ofTerms names ts = .ok sum) : sum.Fits names := by
  obtain ⟨hwidth, rfl⟩ := ofTerms_eq_ok_iff.mp h
  split
  · trivial
  · exact ⟨rfl, fun t ht => hwidth t (mem_ascending.mp ht)⟩

/-- Neither the order of the terms nor their repetitions have a part in the sum. -/
theorem covers_ofTerms_iff (h : ofTerms names ts = .ok sum) {m : Minterm} :
    sum.covers m = true ↔ ∃ t ∈ ts, t.covers m = true := by
  obtain ⟨-, rfl⟩ := ofTerms_eq_ok_iff.mp h
  split
  · rename_i hnil
    simp [covers, List.isEmpty_iff.mp hnil]
  · simp [covers]

theorem ofTerms_congr (h : ofTerms names ts = .ok sum) (hts : ∀ t, t ∈ ts' ↔ t ∈ ts) :
    ofTerms names ts' = .ok sum := by
  obtain ⟨hwidth, rfl⟩ := ofTerms_eq_ok_iff.mp h
  refine ofTerms_eq_ok_iff.mpr ⟨fun t ht => hwidth t ((hts t).mp ht), ?_⟩
  have hnil : ts'.isEmpty = ts.isEmpty := by
    rw [Bool.eq_iff_iff]
    simp only [List.isEmpty_iff, List.eq_nil_iff_forall_not_mem, hts]
  rw [hnil, ascending_congr hts]

/-- Over names that differ from each other, terms of the right width have a sum. In every row, its
formula has a value, which says whether the sum covers the row, and thereby whether one of the
terms does. Lists of the same terms have the same sum. -/
theorem eval_toFormula_ofTerms (hnodup : names.Nodup) (hwidth : ∀ t ∈ ts, t.width = names.length) :
    ∃ sum, ofTerms names ts = .ok sum ∧
      (∀ m : Minterm, sum.toFormula.eval (.ofBits names (indexBits m.toNat names.length)) =
        .ok (sum.covers m)) ∧
      (∀ m : Minterm, sum.covers m = true ↔ ∃ t ∈ ts, t.covers m = true) ∧
      ∀ ts', (∀ t, t ∈ ts' ↔ t ∈ ts) → ofTerms names ts' = .ok sum := by
  have hsum : ofTerms names ts = .ok _ := ofTerms_eq_ok_iff.mpr ⟨hwidth, rfl⟩
  refine ⟨_, hsum, fun m => ?_, fun m => covers_ofTerms_iff hsum, fun ts' => ofTerms_congr hsum⟩
  exact eval_toFormula (fits_of_ofTerms hsum) hnodup m

/-- Repeated terms over names that are not letters, in a row with more bits than there are names. -/
theorem eval_toFormula_ofTerms_repeated :
    ∃ sum, ofTerms ['y', '&'] [⟨[none, some false]⟩, ⟨[some true, none]⟩, ⟨[none, some false]⟩] =
        .ok sum ∧
      sum.covers 6 = true ∧ sum.toFormula.eval (.ofBits ['y', '&'] [true, false]) = .ok true := by
  have hwidth : ∀ t ∈ ([⟨[none, some false]⟩, ⟨[some true, none]⟩, ⟨[none, some false]⟩] :
      List Term), t.width = ['y', '&'].length := by decide
  obtain ⟨sum, hsum, heval, hcovers, -⟩ := eval_toFormula_ofTerms (by decide) hwidth
  have hcovered : sum.covers 6 = true := (hcovers 6).mpr ⟨_, List.mem_cons_self, by decide⟩
  exact ⟨sum, hsum, hcovered, (heval 6).trans (congrArg Except.ok hcovered)⟩

end OfTerms

end SumOfProducts

end PrimeForm
