import PrimeForm.Formula.Evaluation

/-!
# Recursions over a formula

Folding a formula, evaluating it and writing it are recursions of one kind: the result for a node is
made of its operands and of the results for these. A call for a formula stays open while the calls
for its operands are made, so there are as many open calls as nodes on a branch. With room for the
depth of the formula a recursion comes to its end, and with less room it does not.

## Main definitions

* `Formula.recurse` — a recursion, given by what it does at a node
* `Formula.recurseWithin` — the recursion with a limit on the calls that are open at one time

## Main results

* `Formula.recurseWithin_eq` — the limit that a recursion needs is the depth of the formula
* `Formula.fold_eq_recurse`, `Formula.solve_eq_recurse`, `Formula.write_eq_recurse` — the recursions
  of this library
-/

namespace PrimeForm.Formula

section Recursion

variable {α : Type}

/-- The result of a recursion that does `step` at every node, with the operands of the node and the
results for them. -/
def recurse (step : Node (Formula × α) → α) : Formula → α
  | var x p => step (.var x p)
  | literal b => step (.literal b)
  | neg φ => step (.neg (φ, φ.recurse step))
  | binary op φ ψ _ => step (.binary op (φ, φ.recurse step) (ψ, ψ.recurse step))

/-- The result of the same recursion if no more than `calls` calls are open at any time, this one
included. -/
def recurseWithin (step : Node (Formula × α) → α) : (calls : Nat) → Formula → Option α
  | 0, _ => none
  | _ + 1, var x p => some (step (.var x p))
  | _ + 1, literal b => some (step (.literal b))
  | calls + 1, neg φ => do
    let a ← recurseWithin step calls φ
    return step (.neg (φ, a))
  | calls + 1, binary op φ ψ _ => do
    let a ← recurseWithin step calls φ
    let b ← recurseWithin step calls ψ
    return step (.binary op (φ, a) (ψ, b))

theorem depth_pos (φ : Formula) : 0 < φ.depth := by
  cases φ <;> exact Nat.succ_pos _

/-- A recursion needs as many open calls as the formula is deep. -/
theorem recurseWithin_eq (step : Node (Formula × α) → α) (calls : Nat) (φ : Formula) :
    recurseWithin step calls φ = if φ.depth ≤ calls then some (φ.recurse step) else none := by
  induction calls generalizing φ with
  | zero => rw [recurseWithin, if_neg (Nat.not_le_of_lt φ.depth_pos)]
  | succ calls ih =>
    cases φ with
    | var x p | literal b => exact (if_pos (Nat.succ_le_succ (Nat.zero_le calls))).symm
    | neg φ =>
      simp only [recurseWithin, ih, depth, Nat.add_le_add_iff_right]
      split <;> rfl
    | binary op φ ψ p =>
      -- The calls for the two operands are not open at the same time.
      simp only [recurseWithin, ih, depth, Nat.add_le_add_iff_right, Nat.max_le]
      by_cases hφ : φ.depth ≤ calls
      · by_cases hψ : ψ.depth ≤ calls
        · simp [hφ, hψ, recurse]
        · simp [hφ, hψ]
      · simp [hφ]

end Recursion

/-! ### Folding -/

section Fold

variable {α : Type}

/-- A fold looks at the results for the operands only. -/
def foldStep (f : Node α → α) : Node (Formula × α) → α
  | .var x p => f (.var x p)
  | .literal b => f (.literal b)
  | .neg (_, a) => f (.neg a)
  | .binary op (_, a) (_, b) => f (.binary op a b)

theorem fold_eq_recurse (f : Node α → α) (φ : Formula) : φ.fold f = φ.recurse (foldStep f) := by
  induction φ with
  | var x p | literal b => rfl
  | neg φ ih => rw [fold, ih]; rfl
  | binary op φ ψ p ihφ ihψ => rw [fold, ihφ, ihψ]; rfl

end Fold

/-! ### Evaluating -/

/-- The value of a node, and the text written for it on top of what has been written before. -/
def solveStep (σ : Assignment) :
    Node (Formula ×
        (Option (List Char) → Except EvaluationError (Bool × Option (List Char)))) →
      Option (List Char) → Except EvaluationError (Bool × Option (List Char))
  | .var x _, written =>
    match σ.value? x with
    | some b => .ok (b, written.map (x :: ·))
    | none => .error (.unassigned x)
  | .literal b, written => .ok (b, written.map (Digit.ofBool b :: ·))
  | .neg (_, solve), written => do
    let (b, written) ← solve (written.map ('(' :: '!' :: ·))
    return (!b, written.map (')' :: ·))
  | .binary op (_, left) (_, right), written => do
    let (a, written) ← left (written.map ('(' :: ·))
    let (b, written) ← right (written.map (op.symbol :: ·))
    return (op.apply a b, written.map (')' :: ·))

theorem solve_eq_recurse (σ : Assignment) (φ : Formula) :
    φ.solve σ = φ.recurse (solveStep σ) := by
  induction φ with
  | var x p | literal b => rfl
  | neg φ ih =>
    funext written
    rw [solve, ih]
    rfl
  | binary op φ ψ p ihφ ihψ =>
    funext written
    rw [solve, ihφ, ihψ]
    rfl

/-! ### Writing -/

/-- The characters of a node in front of `rest`. Whether an operand is put in parentheses depends on
the operand itself. -/
def writeStep : Node (Formula × (List Char → List Char)) → List Char → List Char
  | .var x _, rest => x :: rest
  | .literal b, rest => Digit.ofBool b :: rest
  | .neg (φ, write), rest => '!' :: writeEnclosed (!φ.isAtom) write rest
  | .binary op (φ, left) (ψ, right), rest =>
    writeEnclosed (φ.strength ≤ op.precedence) left
      (op.symbol :: writeEnclosed (ψ.strength < op.precedence) right rest)

theorem write_eq_recurse (φ : Formula) : φ.write = φ.recurse writeStep := by
  induction φ with
  | var x p | literal b => rfl
  | neg φ ih =>
    funext rest
    rw [write, ih]
    rfl
  | binary op φ ψ p ihφ ihψ =>
    funext rest
    rw [write, ihφ, ihψ]
    rfl

end PrimeForm.Formula
