import PrimeForm.Connective

/-!
# Formulas

Propositional formulas over variables named by one character. Variables and binary connectives
carry the position at which a text mentions them; a formula that is put together from parts has
position `0` everywhere.

## Main definitions

* `Formula` — the trees
* `Formula.fold` — bottom-up recursion, left operand before right
* `Formula.size`, `Formula.depth` — number of nodes, and of nodes on a longest branch
* `Formula.join`, `Formula.chain` — formulas put together from parts
* `Formula.unplaced` — a formula with its positions forgotten
-/

namespace PrimeForm

/-- A propositional formula. -/
inductive Formula where
  /-- A variable, mentioned at `position`. -/
  | var (name : Char) (position : Nat)
  /-- A truth value. -/
  | literal (value : Bool)
  /-- The negation of a formula. -/
  | neg (operand : Formula)
  /-- Two formulas under a connective whose symbol stands at `position`. -/
  | binary (op : Connective) (left right : Formula) (position : Nat)
deriving DecidableEq, Repr

namespace Formula

/-- A node of a formula whose operands have been replaced by values. -/
inductive Node (α : Type) where
  | var (name : Char) (position : Nat)
  | literal (value : Bool)
  | neg (operand : α)
  | binary (op : Connective) (left right : α)

/-- Replace every node, from the leaves up, by the value that `f` gives it. -/
def fold {α : Type} (f : Node α → α) : Formula → α
  | var x p => f (.var x p)
  | literal b => f (.literal b)
  | neg φ => f (.neg (φ.fold f))
  | binary op φ ψ _ => f (.binary op (φ.fold f) (ψ.fold f))

/-- Number of nodes. -/
def size (φ : Formula) : Nat :=
  φ.fold fun
    | .var _ _ | .literal _ => 1
    | .neg n => n + 1
    | .binary _ m n => m + n + 1

/-- Number of nodes on a longest branch; a leaf has depth `1`. -/
def depth : Formula → Nat
  | var _ _ | literal _ => 1
  | neg φ => φ.depth + 1
  | binary _ φ ψ _ => max φ.depth ψ.depth + 1

/-! ### Formulas put together from parts -/

/-- The variable of a name. -/
def ofName (name : Char) : Formula := var name 0

/-- Two formulas under a connective. -/
def join (op : Connective) (φ ψ : Formula) : Formula := binary op φ ψ 0

/-- The formulas of a list under one connective, nested to the right. The empty list gives
`unit`. -/
def chain (op : Connective) (unit : Formula) : List Formula → Formula
  | [] => unit
  | [φ] => φ
  | φ :: ψ :: rest => join op φ (chain op unit (ψ :: rest))

/-! ### Forgetting positions -/

/-- The formula with every position set to `0`. -/
def unplaced : Formula → Formula
  | var x _ => var x 0
  | literal b => literal b
  | neg φ => neg φ.unplaced
  | binary op φ ψ _ => binary op φ.unplaced ψ.unplaced 0

end Formula

end PrimeForm
