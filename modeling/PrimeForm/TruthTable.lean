import PrimeForm.Formula.Evaluation
import PrimeForm.Minterm

/-!
# Truth tables

The values of a formula under all assignments of a list of variables, in counting order: row `i`
gives the variables the bits of `i`, so the first variable changes slowest.

## Main definitions

* `TruthTable` — variables, values, the rows with the value true, and the explicit text of the
  formula if it was asked for
* `TruthTable.Draft.addRow`, `TruthTable.enumerate` — one row, and all rows
* `TruthTable.build`, `TruthTable.buildTraced` — the table of a formula, without and with the text
* `TruthTable.output?`, `TruthTable.rows` — what a table says
* `TruthTable.text` — the table in print
-/

namespace PrimeForm

/-- The truth table of a formula. -/
structure TruthTable where
  /-- The variables, one for each column. -/
  names : List Char
  /-- The value of the formula in each row. -/
  outputs : List Bool
  /-- The numbers of the rows in which the formula is true, in ascending order. -/
  minterms : List Minterm
  /-- The explicit text of the formula, in a traced table. -/
  explicit : Option String
deriving DecidableEq, Repr

/-- One row of a truth table. -/
structure Row where
  index : Nat
  inputs : List Bool
  output : Bool
deriving DecidableEq, Repr

namespace TruthTable

/-- A table in the making: the assignment of the latest row, the values in the rows so far and the
rows that are true among them, both with the latest one first, and the explicit text once it has
been written. -/
structure Draft where
  latest : Assignment := .empty
  outputs : List Bool := []
  minterms : List Minterm := []
  explicit : Option String := none

/-- The value in a row is put down, and the number of the row as well if the value is true. -/
def Draft.record (draft : Draft) (index : Nat) (output : Bool) : Draft :=
  { draft with
    outputs := output :: draft.outputs
    minterms := if output then UInt64.ofNat index :: draft.minterms else draft.minterms }

/-- One more row of a table in the making. Its bits are written over the assignment of the row
before. The first row of a traced table also writes the explicit text. -/
def Draft.addRow (traced : Bool) (φ : Formula) (names : List Char) (draft : Draft) (index : Nat) :
    Except EvaluationError Draft := do
  let σ := draft.latest.setAll names (indexBits index names.length)
  if traced && index == 0 then
    let (output, text) ← φ.evalTraced σ
    return { draft with latest := σ, explicit := some text }.record index output
  else
    let output ← φ.eval σ
    return { draft with latest := σ }.record index output

/-- The truth table of a formula over a list of variables, row by row in counting order, or the
error of the first row that has no value. -/
def enumerate (traced : Bool) (φ : Formula) (names : List Char) :
    Except EvaluationError TruthTable :=
  if names.length ≤ maxVariables then do
    let draft ← (List.range (rowsOver names.length)).foldlM (Draft.addRow traced φ names) {}
    return ⟨names, draft.outputs.reverse, draft.minterms.reverse, draft.explicit⟩
  else
    .error (.tooManyVariables names.length)

/-- The truth table of a formula over a list of variables. -/
def build (φ : Formula) (names : List Char) : Except EvaluationError TruthTable :=
  enumerate false φ names

/-- The truth table of a formula together with the text that its first row writes. -/
def buildTraced (φ : Formula) (names : List Char) : Except EvaluationError TruthTable :=
  enumerate true φ names

/-- Number of rows. -/
def rowCount (table : TruthTable) : Nat := table.outputs.length

/-- The value in a row, if the table has that row. -/
def output? (table : TruthTable) (index : Minterm) : Option Bool := table.outputs[index.toNat]?

/-- The rows in counting order. -/
def rows (table : TruthTable) : List Row :=
  table.outputs.zipIdx.map fun (output, index) =>
    ⟨index, indexBits index table.names.length, output⟩

/-! ### Tables in print -/

/-- The cells of a line, with bars between them. -/
def line (cells : List String) : String := " | ".intercalate cells

/-- The title line: the variables and, for the value, `q`. -/
def titleLine (table : TruthTable) : String := line (table.names.map Char.toString ++ ["q"])

/-- The line of a row: its values as digits. -/
def rowLine (row : Row) : String :=
  line ((row.inputs ++ [row.output]).map fun value => (Digit.ofBool value).toString)

/-- The rule under the title line, with a dash for each of the bytes above it. -/
def ruleLine (table : TruthTable) : String :=
  String.ofList (List.replicate table.titleLine.utf8ByteSize '-')

/-- The table in print, every line of it ended. -/
def text (table : TruthTable) : String :=
  String.join ((table.titleLine :: table.ruleLine :: table.rows.map rowLine).map (· ++ "\n"))

instance : ToString TruthTable := ⟨text⟩

end TruthTable

end PrimeForm
