import PrimeForm.Analysis
import PrimeForm.Formula.Outline

/-!
# The journal

What each step of the work has to report. The records of a step are a function of what the step is
given, so the steps themselves report nothing.

## Main definitions

* `Severity`, `Record` — a report, its weight and its topic
* `Journal.ofParse`, `Journal.ofVariables`, `Journal.ofTable`, `Journal.ofRounds`,
  `Journal.ofPrimes`, `Journal.ofSimplify`, `Journal.ofAnalysis` — the records of each step
-/

namespace PrimeForm

/-- The weight of a record. -/
inductive Severity where
  | error
  | warn
  | info
  | debug
  | trace
deriving DecidableEq, Repr

namespace Severity

/-- The name of a severity at the head of a record. -/
def name : Severity → String
  | error => "ERROR"
  | warn => "WARN"
  | info => "INFO"
  | debug => "DEBUG"
  | trace => "TRACE"

/-- How far down a severity stands; the gravest is at `1`. -/
def rank : Severity → Nat
  | error => 1
  | warn => 2
  | info => 3
  | debug => 4
  | trace => 5

end Severity

/-- A report about a step. -/
structure Record where
  severity : Severity
  topic : String
  message : String
deriving DecidableEq, Repr

/-- The record on one line. -/
def Record.text (r : Record) : String := r.severity.name ++ " " ++ r.topic ++ " " ++ r.message

namespace Journal

/-- The records of reading a text as a formula. -/
def ofParse (text : String) : List Record :=
  match Formula.parse text with
  | .ok φ =>
    [⟨.debug, "implicant_logic::expression::parser",
      "parsed " ++ Text.quoted text ++ " into " ++ φ.outline⟩]
  | .error _ => []

/-- The records of listing the variables of a formula. -/
def ofVariables (φ : Formula) : List Record :=
  match φ.sortedNames with
  | .ok [] =>
    [⟨.warn, "implicant_logic::expression::variables",
      "expression has no variables; the truth table has a single row"⟩]
  | _ => []

/-- The records of setting up a truth table. -/
def ofTable (φ : Formula) (names : List Char) : List Record :=
  let topic := "implicant_logic::truth_table"
  let start : Record := ⟨.debug, topic, "enumerating " ++ toString (rowsOver names.length) ++
    " rows over " ++ Text.quotedChars names⟩
  match TruthTable.build φ names with
  | .ok table =>
    [start, ⟨.info, topic, "truth table: " ++ toString table.rowCount ++ " rows, " ++
      toString table.minterms.length ++ " minterms"⟩]
  | .error (.tooManyVariables _) => []
  | .error (.unassigned _) => [start]

/-- The record of the round with a given number. -/
def ofRound (number : Nat) (round : Round) : Record :=
  ⟨.debug, "implicant_logic::cover::minimize",
    "round " ++ toString number ++ ": " ++ toString round.terms.length ++ " terms -> " ++
      toString round.primes.length ++ " primes, " ++ toString round.merged.length ++ " merged"⟩

/-- The records of the rounds that a list of terms goes through. -/
def ofRounds (terms : List Term) : List Record :=
  (rounds terms).zipIdx.map fun (round, i) => ofRound (i + 1) round

/-- The records of computing the prime implicants of a list of rows. -/
def ofPrimes (n : Nat) (ms : List Minterm) : List Record :=
  match outOfRange? n ms with
  | some _ => []
  | none => ofRounds (rowTerms n ms)

/-- The records of simplifying the function that is true in the given rows. Constants take no
rounds. -/
def ofSimplify (names : List Char) (ms : List Minterm) : List Record :=
  match SumOfProducts.simplify names ms with
  | .ok (.implicants _ _) => ofPrimes names.length ms
  | _ => []

/-- The records of the stages of an analysis, up to the stage that fails. -/
def ofAnalysis (options : Analysis.Options) (text : String) : List Record :=
  let source := Analysis.sourceText options text
  ofParse source ++
    match Formula.parse source with
    | .error _ => []
    | .ok φ => ofVariables φ ++
      match φ.sortedNames with
      | .error _ => []
      | .ok names =>
        ⟨.info, "implicant_logic", "variables: " ++ Text.quotedChars names⟩ ::
          (ofTable φ names ++
            match analyze options text with
            | .ok { table, simplified := some sum, .. } =>
              ofSimplify names table.minterms ++
                [⟨.info, "implicant_logic", "simplified: " ++ sum.text⟩]
            | _ => [])

end Journal

end PrimeForm
