import PrimeForm.Assignment
import PrimeForm.Formula.Printer

/-!
# Evaluation

The truth value of a formula under an assignment. Both operands of a connective are evaluated,
the left one first, even where one of them would decide the value; so a variable without a value
is never overlooked.

## Main definitions

* `Formula.solve` — the recursion, with or without a text that is written along the way
* `Formula.eval` — the truth value, or the first variable without one
* `Formula.evalTraced` — the truth value together with the explicit text

## Main results

* `Formula.solve_eq`, `Formula.evalTraced_eq` — writing the text does not change the outcome, and
  the text written is the explicit text
-/

namespace PrimeForm

/-- The number of variables beyond which truth tables are not set up. -/
def maxVariables : Nat := 26

/-- Why a formula or a truth table has no value. -/
inductive EvaluationError where
  /-- The assignment gives this variable no value. -/
  | unassigned (name : Char)
  /-- A truth table would have this many variables, more than `maxVariables`. -/
  | tooManyVariables (count : Nat)
deriving DecidableEq, Repr

/-- The wording of an evaluation error. -/
def EvaluationError.message : EvaluationError → String
  | unassigned x => s!"Variable '{x}' has no value in the assignment"
  | tooManyVariables n =>
    s!"Cannot enumerate {n} variables (at most {maxVariables} are supported)"

namespace Formula

/-- Evaluate a formula to its truth value, or to the first of its variables that has none. If a text
is to be written along the way, its characters go on top of those written before, the last one
first. A leaf writes one character; a connective or a negation writes a pair of parentheses around
what it applies to. -/
def solve (σ : Assignment) :
    Formula → Option (List Char) → Except EvaluationError (Bool × Option (List Char))
  | var x _, written =>
    match σ.value? x with
    | some b => .ok (b, written.map (x :: ·))
    | none => .error (.unassigned x)
  | literal b, written => .ok (b, written.map (Digit.ofBool b :: ·))
  | neg φ, written => do
    let (b, written) ← φ.solve σ (written.map ('(' :: '!' :: ·))
    return (!b, written.map (')' :: ·))
  | binary op φ ψ _, written => do
    let (a, written) ← φ.solve σ (written.map ('(' :: ·))
    let (b, written) ← ψ.solve σ (written.map (op.symbol :: ·))
    return (op.apply a b, written.map (')' :: ·))

/-- The truth value of a formula, or the first of its variables that has none. -/
def eval (σ : Assignment) (φ : Formula) : Except EvaluationError Bool :=
  (φ.solve σ none).map Prod.fst

/-- The truth value of a formula and the text written while it was computed. -/
def evalTraced (σ : Assignment) (φ : Formula) : Except EvaluationError (Bool × String) := do
  let (b, written) ← φ.solve σ (some [])
  return (b, String.ofList (written.getD []).reverse)

/-- Whether a text is written, and what has been written before, has no part in the outcome. -/
theorem solve_eq (σ : Assignment) (φ : Formula) (written : Option (List Char)) :
    φ.solve σ written =
      (φ.eval σ).map fun b => (b, written.map (φ.explicitSymbols.reverse ++ ·)) := by
  induction φ generalizing written with
  | var x p => cases h : σ.value? x <;> simp [solve, eval, h, explicitSymbols, Except.map]
  | literal b => rfl
  | neg φ ih =>
    rw [eval, solve, solve, Option.map_none, ih, eval]
    cases φ.solve σ none <;> cases written <;>
      simp [explicitSymbols, enclose, Except.map, bind, Except.bind, pure, Except.pure]
  | binary op φ ψ p ihφ ihψ =>
    rw [eval, solve, solve, Option.map_none, ihφ, eval]
    cases φ.solve σ none with
    | error e => rfl
    | ok left =>
      simp only [Except.map, bind, Except.bind, ihψ]
      cases ψ.eval σ <;> cases written <;> simp [explicitSymbols, enclose, pure, Except.pure]

theorem evalTraced_eq (σ : Assignment) (φ : Formula) :
    φ.evalTraced σ = (φ.eval σ).map fun b => (b, φ.explicitText) := by
  rw [evalTraced, solve_eq]
  cases φ.eval σ <;> simp [Except.map, bind, Except.bind, pure, Except.pure, explicitText]

/-! ### Evaluation without a text -/

theorem eval_var (σ : Assignment) (x : Char) (p : Nat) :
    (var x p).eval σ =
      match σ.value? x with
      | some b => .ok b
      | none => .error (.unassigned x) := by
  rw [eval, solve]
  cases σ.value? x <;> rfl

theorem eval_neg (σ : Assignment) (φ : Formula) :
    (neg φ).eval σ = do
      let b ← φ.eval σ
      return !b := by
  rw [eval, solve, Option.map_none, eval]
  cases φ.solve σ none <;> rfl

theorem eval_binary (σ : Assignment) (op : Connective) (φ ψ : Formula) (p : Nat) :
    (binary op φ ψ p).eval σ = do
      let a ← φ.eval σ
      let b ← ψ.eval σ
      return op.apply a b := by
  rw [eval, solve, solve_eq σ φ, funext (solve_eq σ ψ)]
  cases φ.eval σ with
  | error e => rfl
  | ok a => cases ψ.eval σ <;> rfl

end Formula

end PrimeForm
