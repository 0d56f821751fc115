import PrimeForm.Proofs.Analysis
import PrimeForm.Proofs.Grammar.Names

/-!
# When an analysis fails

An analysis fails in its first two stages only. Once the text has been read and its variables have
been listed, there are no more of them than a table has columns, the table covers all of them, and
the rows handed on to the simplification exist. What is computed before that depends on the text
alone, so the optional stages can be left out without a difference to the others.

## Main definitions

* `Analysis.Agree` — two analyses that differ in their optional parts only

## Main results

* `analyze_eq_error_iff`, `exists_analyze_eq_name_error_iff` — the failures of an analysis
* `analyze_agree` — two analyses that read the same text
* `analyze_outcome` — how an analysis ends, and that the optional stages have no part in it
-/

namespace PrimeForm

/-! ### The failures of an analysis -/

section Failures

variable {options : Analysis.Options} {text : String}

/-- The failures of an analysis are those of reading and of listing the variables. -/
theorem analyze_eq_error_iff {f : Failure} :
    analyze options text = .error f ↔
      (∃ e, Formula.parse (Analysis.sourceText options text) = .error e ∧ f = .parse e) ∨
      ∃ φ e, Formula.parse (Analysis.sourceText options text) = .ok φ ∧
        φ.sortedNames = .error e ∧ f = .name e := by
  cases hparse : Formula.parse (Analysis.sourceText options text) with
  | error e => simp [analyze, hparse, Except.mapError, bind, Except.bind, eq_comm]
  | ok φ =>
    cases hnames : φ.sortedNames with
    | error e => simp [analyze, hparse, hnames, Except.mapError, bind, Except.bind, eq_comm]
    | ok names =>
      obtain ⟨sum, hok⟩ := exists_analyze_eq_ok hparse hnames
      simp [hok options text rfl, hnames]

/-- An analysis fails at its names exactly if its text is read but contains a capital. -/
theorem exists_analyze_eq_name_error_iff :
    (∃ e, analyze options text = .error (.name e)) ↔
      (∃ φ, Formula.parse (Analysis.sourceText options text) = .ok φ) ∧
        ∃ c ∈ (Analysis.sourceText options text).toList, c.isUpper = true := by
  simp only [analyze_eq_error_iff, reduceCtorEq, and_false, exists_false, false_or,
    Failure.name.injEq]
  constructor
  · rintro ⟨_, φ, e, hparse, hnames, -⟩
    exact ⟨⟨φ, hparse⟩, (Formula.exists_sortedNames_eq_error_iff_of_parse hparse).mp ⟨e, hnames⟩⟩
  · rintro ⟨⟨φ, hparse⟩, hcapital⟩
    obtain ⟨e, hnames⟩ := (Formula.exists_sortedNames_eq_error_iff_of_parse hparse).mpr hcapital
    exact ⟨e, φ, e, hparse, hnames, rfl⟩

end Failures

/-! ### Two analyses of a text -/

/-- Two analyses that are equal up to the parts for which their options differ. -/
structure Analysis.Agree (options options' : Options) (a a' : Analysis) : Prop where
  source_eq : a.source = a'.source
  formula_eq : a.formula = a'.formula
  names_eq : a.names = a'.names
  columns_eq : a.table.names = a'.table.names
  outputs_eq : a.table.outputs = a'.table.outputs
  minterms_eq : a.table.minterms = a'.table.minterms
  explicit_eq : options.explicit = options'.explicit → a.table.explicit = a'.table.explicit
  simplified_eq : options.simplify = options'.simplify → a.simplified = a'.simplified

/-- Two analyses that read the same text fail alike, or both succeed and agree. -/
theorem analyze_agree {options options' : Analysis.Options} {text text' : String}
    (hsource : Analysis.sourceText options' text' = Analysis.sourceText options text) :
    (∃ f, analyze options text = .error f ∧ analyze options' text' = .error f) ∨
      ∃ a a', analyze options text = .ok a ∧ analyze options' text' = .ok a' ∧
        Analysis.Agree options options' a a' := by
  cases hrun : analyze options text with
  | error f =>
    rw [analyze_eq_error_iff, ← hsource, ← analyze_eq_error_iff] at hrun
    exact Or.inl ⟨f, rfl, hrun⟩
  | ok a =>
    obtain ⟨hread, hparse, hnames, -⟩ := analyze_eq_ok_iff.mp hrun
    rw [hread] at hparse
    obtain ⟨sum, hok⟩ := exists_analyze_eq_ok hparse hnames
    refine Or.inr ⟨_, _, hrun.symm.trans (hok options text rfl), hok options' text' hsource, ?_⟩
    exact ⟨rfl, rfl, rfl, rfl, rfl, rfl, fun h => by rw [h], fun h => by rw [h]⟩

/-- The text that is read is the given one, without its blank characters if these are removed. -/
theorem Analysis.toList_sourceText (options : Options) (text : String) :
    (sourceText options text).toList =
      if options.removeBlanks then text.toList.filter fun c => !Text.isBlank c
      else text.toList := by
  rw [sourceText]
  split
  · exact Text.toList_removeBlanks text
  · rfl

/-- An analysis reads its text with or without the blank characters. It fails if this is not read,
and then with the error of the reader, or if it is read but contains a capital letter. It fails in
no other way, and with or without the optional stages it fails alike, or produces the same apart
from what these stages add. -/
theorem analyze_outcome (options : Analysis.Options) (text : String) :
    ((Analysis.sourceText options text).toList =
      if options.removeBlanks then text.toList.filter fun c => !Text.isBlank c else text.toList) ∧
    (∀ e, analyze options text = .error (.parse e) ↔
      Formula.parse (Analysis.sourceText options text) = .error e) ∧
    ((∃ e, analyze options text = .error (.name e)) ↔
      (∃ φ, Formula.parse (Analysis.sourceText options text) = .ok φ) ∧
        ∃ c ∈ (Analysis.sourceText options text).toList, c.isUpper = true) ∧
    (∀ e, analyze options text ≠ .error (.evaluation e)) ∧
    (∀ e, analyze options text ≠ .error (.term e)) ∧
    ∀ options' : Analysis.Options, options'.removeBlanks = options.removeBlanks →
      (∃ f, analyze options text = .error f ∧ analyze options' text = .error f) ∨
      ∃ a a', analyze options text = .ok a ∧ analyze options' text = .ok a' ∧
        Analysis.Agree options options' a a' := by
  refine ⟨Analysis.toList_sourceText options text, fun e => ?_, exists_analyze_eq_name_error_iff,
    fun e => ?_, fun e => ?_, fun options' hblanks => analyze_agree ?_⟩
  · simp [analyze_eq_error_iff]
  · simp [analyze_eq_error_iff]
  · simp [analyze_eq_error_iff]
  · rw [Analysis.sourceText, hblanks, Analysis.sourceText]

end PrimeForm
