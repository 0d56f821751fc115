import PrimeForm.Formula.Evaluation
import PrimeForm.Formula.SyntaxError
import PrimeForm.Formula.Variables
import PrimeForm.Term

/-!
# Failures

The ways in which the analysis of a formula can fail, one for each of its stages.

## Main definitions

* `Failure` — the error of a stage
* `Failure.message`, `Failure.causes` — its wording, and the wording of everything behind it
* `FaultClass` — whether the data or the request is at fault
-/

namespace PrimeForm

/-- The error of a stage of the analysis. -/
inductive Failure where
  /-- The text is not a formula. -/
  | parse (error : ParseError)
  /-- A variable has no legal name. -/
  | name (error : NameError)
  /-- The formula has no value, or too many variables for a table. -/
  | evaluation (error : EvaluationError)
  /-- A list of terms or rows is refused. -/
  | term (error : TermError)
deriving DecidableEq, Repr

/-- What is at fault. -/
inductive FaultClass where
  /-- The data is malformed. -/
  | invalidData
  /-- The data is well-formed, but not fit for the request. -/
  | invalidInput
deriving DecidableEq, Repr

/-- A syntax error is a fault of the data. -/
def SyntaxError.faultClass (_ : SyntaxError) : FaultClass := .invalidData

/-- A parse error is a fault of the data. -/
def ParseError.faultClass (e : ParseError) : FaultClass := e.error.faultClass

/-- A name error is a fault of the request. -/
def NameError.faultClass (_ : NameError) : FaultClass := .invalidInput

/-- An evaluation error is a fault of the request. -/
def EvaluationError.faultClass (_ : EvaluationError) : FaultClass := .invalidInput

/-- A term error is a fault of the request. -/
def TermError.faultClass (_ : TermError) : FaultClass := .invalidInput

namespace Failure

/-- The wording of a failure is that of the error of the stage. -/
def message : Failure → String
  | parse e => e.message
  | name e => e.message
  | evaluation e => e.message
  | term e => e.message

/-- What a failure comes from, outermost first: the error of the stage and, for a text that is not
a formula, the syntax error in it. -/
def causes : Failure → List String
  | parse e => [e.message, e.error.message]
  | f => [f.message]

/-- The class of a failure is that of the stage's error. -/
def faultClass : Failure → FaultClass
  | parse e => e.faultClass
  | name e => e.faultClass
  | evaluation e => e.faultClass
  | term e => e.faultClass

end Failure

end PrimeForm
