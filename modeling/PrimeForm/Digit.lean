/-!
# Truth values as digits

Formulas, terms and truth tables all write the truth values as the digits `0` and `1`.

## Main definitions

* `Digit.ofBool` — the digit of a truth value
* `Digit.toBool?` — the truth value of a digit, if the character is one of the two
-/

namespace PrimeForm.Digit

/-- The digit that stands for a truth value. -/
def ofBool (value : Bool) : Char := if value then '1' else '0'

/-- The truth value that a character stands for, `none` for every character but `0` and `1`. -/
def toBool? (c : Char) : Option Bool :=
  if c = '0' then some false else if c = '1' then some true else none

@[simp] theorem toBool?_ofBool (value : Bool) : toBool? (ofBool value) = some value := by
  cases value <;> rfl

theorem toBool?_eq_some_iff {c : Char} {value : Bool} :
    toBool? c = some value ↔ c = ofBool value := by
  unfold toBool? ofBool
  split
  · subst c; cases value <;> decide
  · split
    · subst c; cases value <;> decide
    · cases value <;> simp_all

end PrimeForm.Digit
