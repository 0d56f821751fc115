/-!
# Assignments

Truth values for some of the variables.

## Main definitions

* `Assignment` — a truth value, or none, for every name
* `Assignment.set`, `Assignment.unset` — change the value of one name
* `Assignment.setAll`, `Assignment.ofBits` — the values of a row of a truth table, over those of
  another assignment or alone
-/

namespace PrimeForm

/-- Truth values for some of the variables. -/
@[ext]
structure Assignment where
  /-- The value of a name, if it has one. -/
  value? : Char → Option Bool

namespace Assignment

/-- No variable has a value. -/
def empty : Assignment := ⟨fun _ => none⟩

/-- Give `x` the value `b`. -/
def set (σ : Assignment) (x : Char) (b : Bool) : Assignment :=
  ⟨fun y => if y = x then some b else σ.value? y⟩

/-- Take the value of `x` away. -/
def unset (σ : Assignment) (x : Char) : Assignment :=
  ⟨fun y => if y = x then none else σ.value? y⟩

/-- Give each name the bit at its place; a later bit replaces an earlier one of the same name, and
all other names keep what they have. -/
def setAll (σ : Assignment) (names : List Char) (bits : List Bool) : Assignment :=
  (names.zip bits).foldl (fun σ column => σ.set column.1 column.2) σ

/-- The assignment that gives each name the bit at its place, and nothing else. -/
def ofBits (names : List Char) (bits : List Bool) : Assignment := empty.setAll names bits

@[simp] theorem value?_empty (x : Char) : empty.value? x = none := rfl

theorem value?_set (σ : Assignment) (x y : Char) (b : Bool) :
    (σ.set x b).value? y = if y = x then some b else σ.value? y := rfl

@[simp] theorem value?_set_self (σ : Assignment) (x : Char) (b : Bool) :
    (σ.set x b).value? x = some b := by
  simp [value?_set]

end Assignment

end PrimeForm
