import PrimeForm.Formula.Printer
import PrimeForm.PrimeImplicants

/-!
# Sums of products

A function as a disjunction of product terms, or as a constant. Terms are kept in ascending order
and written in descending order.

## Main definitions

* `SumOfProducts` — a constant, or terms over a list of variables
* `SumOfProducts.simplify` — all prime implicants of a list of rows
* `SumOfProducts.ofTerms` — the distinct terms of a list
* `SumOfProducts.covers` — the rows in which a sum is true
* `SumOfProducts.toFormula` — the formula that a sum stands for
* `SumOfProducts.text`, `SumOfProducts.parseableText` — a sum as text, with products written side
  by side or joined by the symbol of conjunction
-/

namespace PrimeForm

/-- A disjunction of product terms. -/
inductive SumOfProducts where
  /-- The function that has the same value in every row. -/
  | constant (value : Bool)
  /-- The disjunction of the terms over the variables. -/
  | implicants (names : List Char) (terms : List Term)
deriving DecidableEq, Repr

namespace SumOfProducts

/-- The disjunction of all prime implicants of the function that is true in the given rows. With
no row, or with every row, it is a constant. -/
def simplify (names : List Char) (ms : List Minterm) : Except TermError SumOfProducts :=
  let n := names.length
  match outOfRange? n ms with
  | some m => .error (.mintermOutOfRange m n)
  | none =>
    let rows := distinctRows ms
    if rows.isEmpty then .ok (.constant false)
    -- The rows are distinct and in range, so counting them shows whether one is missing.
    else if rowCount? n = some rows.length then .ok (.constant true)
    else (primeImplicants n rows).map (.implicants names)

/-- The disjunction of the given terms, each of which has a position for every variable. -/
def ofTerms (names : List Char) (terms : List Term) : Except TermError SumOfProducts :=
  match terms.find? fun t => t.width ≠ names.length with
  | some t => .error (.widthMismatch t.width names.length)
  | none => .ok (if terms.isEmpty then .constant false else .implicants names (ascending terms))

/-- The terms of a sum; a constant has none. -/
def terms : SumOfProducts → List Term
  | constant _ => []
  | implicants _ ts => ts

/-- The value of a constant. -/
def constant? : SumOfProducts → Option Bool
  | constant b => some b
  | implicants _ _ => none

/-- Is the sum true in a row? -/
def covers : SumOfProducts → Minterm → Bool
  | constant b, _ => b
  | implicants _ ts, m => ts.any fun t => t.covers m

/-! ### Sums as formulas -/

/-- The variables that a term fixes, each with the value it is given. -/
def literals (names : List Char) (t : Term) : List (Char × Bool) :=
  (names.zip t.bits).filterMap fun (x, bit) => bit.map fun b => (x, b)

/-- The formula that is true when a variable has a value: the variable or its negation. -/
def literalFormula (literal : Char × Bool) : Formula :=
  if literal.2 then .ofName literal.1 else .neg (.ofName literal.1)

/-- The conjunction of what a term asks for. -/
def productFormula (names : List Char) (t : Term) : Formula :=
  .chain .and (.literal true) ((literals names t).map literalFormula)

/-- The formula that a sum stands for, its last term first. -/
def toFormula : SumOfProducts → Formula
  | constant b => .literal b
  | implicants names ts =>
    .chain .or (.literal false) (ts.reverse.map (productFormula names))

/-! ### Sums as text -/

/-- The characters of a variable or of its negation. -/
def literalSymbols (literal : Char × Bool) : List Char :=
  if literal.2 then [literal.1] else ['!', literal.1]

/-- The characters of a product, its literals side by side. A term that leaves every position open
is the constant `1`. -/
def productSymbols (names : List Char) (t : Term) : List Char :=
  if t.dontCares = t.width then ['1']
  else (literals names t).flatMap literalSymbols

/-- The characters of a sum, its last term first. -/
def symbols : SumOfProducts → List Char
  | constant b => [Digit.ofBool b]
  | implicants names ts => ['|'].intercalate (ts.reverse.map (productSymbols names))

/-- The text of a sum. -/
def text (sum : SumOfProducts) : String := String.ofList sum.symbols

/-- The text of the formula that a sum stands for. -/
def parseableText (sum : SumOfProducts) : String := sum.toFormula.text

instance : ToString SumOfProducts := ⟨text⟩

@[simp] theorem toList_text (sum : SumOfProducts) : sum.text.toList = sum.symbols :=
  String.toList_ofList

end SumOfProducts

end PrimeForm
