import PrimeForm.Failure
import PrimeForm.Formula.Parser
import PrimeForm.SumOfProducts
import PrimeForm.Text.Blank
import PrimeForm.TruthTable

/-!
# Analysis of a text

The stages from a text to the simplified form of the function it describes: blanks are removed,
the text is read as a formula, its variables are listed, its truth table is set up, and the rows
in which it is true are turned into a sum of products.

## Main definitions

* `Analysis.Options` — which of the optional stages take place
* `Analysis` — what the stages produce
* `analyze` — the analysis of a text, or the failure of its first failing stage
-/

namespace PrimeForm

/-- Which of the optional stages of an analysis take place. -/
structure Analysis.Options where
  /-- Blank characters are removed from the text. -/
  removeBlanks : Bool := true
  /-- The explicit text of the formula is kept with the truth table. -/
  explicit : Bool := true
  /-- The function is simplified. -/
  simplify : Bool := true
deriving DecidableEq, Repr

/-- What the analysis of a text produces. -/
structure Analysis where
  /-- The text that was read as a formula. -/
  source : String
  formula : Formula
  names : List Char
  table : TruthTable
  /-- The simplified form, if it was asked for. -/
  simplified : Option SumOfProducts
deriving DecidableEq, Repr

namespace Analysis

/-- The text that an analysis reads as a formula. -/
def sourceText (options : Options) (text : String) : String :=
  if options.removeBlanks then Text.removeBlanks text else text

/-- The truth table that an analysis sets up. -/
def tableOf (options : Options) (φ : Formula) (names : List Char) :
    Except EvaluationError TruthTable :=
  if options.explicit then TruthTable.buildTraced φ names else TruthTable.build φ names

/-- The simplified form that an analysis computes. -/
def simplifiedOf (options : Options) (names : List Char) (ms : List Minterm) :
    Except TermError (Option SumOfProducts) :=
  if options.simplify then (SumOfProducts.simplify names ms).map some else .ok none

/-- The prime implicants of the simplified form; a constant has none. -/
def primeImplicants (analysis : Analysis) : List Term :=
  (analysis.simplified.map SumOfProducts.terms).getD []

end Analysis

/-- The analysis of a text, or the failure of the first stage that fails. -/
def analyze (options : Analysis.Options) (text : String) : Except Failure Analysis := do
  let source := Analysis.sourceText options text
  let formula ← (Formula.parse source).mapError .parse
  let names ← formula.sortedNames.mapError .name
  let table ← (Analysis.tableOf options formula names).mapError .evaluation
  let simplified ← (Analysis.simplifiedOf options names table.minterms).mapError .term
  return { source, formula, names, table, simplified }

end PrimeForm
