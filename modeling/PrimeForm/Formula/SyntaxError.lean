import PrimeForm.Text.Quoted

/-!
# Syntax errors

Why a text is not a formula, and where. Positions count characters from `0`; the position after
the last character stands for the end of the text.

## Main definitions

* `maxNesting` — how deeply the rules of the grammar may nest
* `SyntaxError` — a cause and a position
* `ParseError` — a syntax error with the text that it was found in
* `SyntaxError.message`, `ParseError.message` — their wording
-/

namespace PrimeForm

/-- The number of grammar rules that may be open at one time while a formula is read. -/
def maxNesting : Nat := 512

/-- What is wrong with a text. -/
inductive SyntaxError.Cause where
  /-- An operand should start here; `none` at the end of the text. -/
  | operandExpected (found : Option Char)
  /-- A parenthesis should be closed here; `none` at the end of the text. -/
  | closingExpected (found : Option Char)
  /-- A whole formula ends before this character. -/
  | trailing (found : Char)
  /-- One rule more than `maxNesting` would be open here. -/
  | tooDeep
deriving DecidableEq, Repr

/-- A cause, and the position it is found at. -/
structure SyntaxError where
  position : Nat
  cause : SyntaxError.Cause
deriving DecidableEq, Repr

/-- A syntax error with the text it was found in. -/
structure ParseError where
  error : SyntaxError
  input : String
deriving DecidableEq, Repr

namespace SyntaxError

/-- What was found in place of an expected character, as messages word it. -/
def foundText : Option Char → String
  | some c => s!"'{c}'"
  | none => "end of input"

/-- The wording of a syntax error. -/
def message (e : SyntaxError) : String :=
  match e.cause with
  | .operandExpected found =>
    s!"Expected a variable, a literal or a subexpression at position {e.position} -- got " ++
      foundText found
  | .closingExpected found =>
    s!"Expected a \")\" after the expression at position {e.position} -- got " ++ foundText found
  | .trailing c => s!"Unexpected trailing input '{c}' at position {e.position}"
  | .tooDeep =>
    s!"Expression nests too deeply at position {e.position} (at most {maxNesting} levels)"

end SyntaxError

/-- The wording of a parse error: the syntax error, and the text in quotes. -/
def ParseError.message (e : ParseError) : String :=
  "Failed to parse boolean expression: " ++ e.error.message ++ ". Input: " ++
    Text.quoted e.input

end PrimeForm
