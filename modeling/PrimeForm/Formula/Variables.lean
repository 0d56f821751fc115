import PrimeForm.Ascending
import PrimeForm.Formula.Basic

/-!
# The variables of a formula

Every formula lists the variables it mentions. A formula is analysed only if each of its variables
is named by a lowercase letter; the sorted list of its variables then fixes the columns of its
truth table.

## Main definitions

* `Formula.occurrences` — every mention of a variable, from left to right
* `Formula.names` — the names, in the order of their first mention
* `Formula.sortedNames` — the names in ascending order, if all are lowercase letters
* `NameError` — the first mention that is not

## Main results

* `Formula.occurrences_binary` — the mentions on the left come before those on the right
* `Formula.mem_names_iff`, `Formula.nodup_names` — the names are those of the mentions, each once
-/

namespace PrimeForm

/-- A variable that is not named by a lowercase letter, and where it is mentioned. -/
structure NameError where
  name : Char
  position : Nat
deriving DecidableEq, Repr

/-- The wording of a name error. -/
def NameError.message (e : NameError) : String :=
  s!"Illegal identifier '{e.name}' at position {e.position}: " ++
    "variable names must be a single lowercase letter"

namespace Formula

/-- Every mention of a variable with its position, from left to right. -/
def occurrences (φ : Formula) : List (Char × Nat) :=
  φ.fold fun
    | .var x p => [(x, p)]
    | .literal _ => []
    | .neg mentions => mentions
    | .binary _ left right => left ++ right

/-- The names of the variables, in the order of their first mention. -/
def names (φ : Formula) : List Char := (φ.occurrences.map Prod.fst).eraseDups

/-- The names of the variables in ascending order, or the first mention of a variable that is not
named by a lowercase letter `a` to `z`. -/
def sortedNames (φ : Formula) : Except NameError (List Char) :=
  match φ.occurrences.find? fun mention => !mention.1.isLower with
  | some (x, p) => .error ⟨x, p⟩
  | none => .ok (φ.names.mergeSort fun x y => (compare x y).isLE)

@[simp] theorem occurrences_var (x : Char) (p : Nat) : (var x p).occurrences = [(x, p)] := rfl

@[simp] theorem occurrences_literal (b : Bool) : (literal b).occurrences = [] := rfl

@[simp] theorem occurrences_neg (φ : Formula) : (neg φ).occurrences = φ.occurrences := rfl

@[simp] theorem occurrences_binary (op : Connective) (φ ψ : Formula) (p : Nat) :
    (binary op φ ψ p).occurrences = φ.occurrences ++ ψ.occurrences := rfl

theorem mem_names_iff {φ : Formula} {x : Char} : x ∈ φ.names ↔ ∃ p, (x, p) ∈ φ.occurrences := by
  simp [names, List.mem_eraseDups]

theorem nodup_names (φ : Formula) : φ.names.Nodup := nodup_eraseDups _

end Formula

end PrimeForm
