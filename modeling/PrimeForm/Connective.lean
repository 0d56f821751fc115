/-!
# Binary connectives

The four connectives of the formula language. Conjunction binds tightly; disjunction, exclusive
disjunction and implication share one looser level.

## Main definitions

* `Connective.symbol`, `Connective.ofSymbol?` — the character that writes a connective, and back
* `Connective.isTight` — the level that a connective belongs to
* `Connective.apply` — the truth function

## Main results

* `Connective.ofSymbol?_eq_some_iff` — a character is read as a connective exactly when it is its
  symbol
-/

namespace PrimeForm

/-- A binary connective. -/
inductive Connective where
  | or
  | xor
  | and
  | imply
deriving DecidableEq, Repr

namespace Connective

/-- The character that writes a connective. -/
def symbol : Connective → Char
  | or => '|'
  | xor => '^'
  | and => '&'
  | imply => '>'

/-- The connective that a character writes, if any. -/
def ofSymbol? (c : Char) : Option Connective :=
  if c = '|' then some or
  else if c = '^' then some xor
  else if c = '&' then some and
  else if c = '>' then some imply
  else none

/-- The name of a connective in the outline of a formula. -/
def name : Connective → String
  | or => "Or"
  | xor => "Xor"
  | and => "And"
  | imply => "Imply"

/-- Does the connective bind tightly? Only conjunction does. -/
def isTight : Connective → Bool
  | and => true
  | _ => false

/-- The strength with which a connective holds its operands. -/
def precedence (op : Connective) : Nat := if op.isTight then 2 else 1

/-- The truth function of a connective; implication is material. -/
def apply : Connective → Bool → Bool → Bool
  | or, a, b => a || b
  | xor, a, b => a != b
  | and, a, b => a && b
  | imply, a, b => !a || b

@[simp] theorem ofSymbol?_symbol (op : Connective) : ofSymbol? op.symbol = some op := by
  cases op <;> rfl

theorem symbol_injective {op op' : Connective} (h : op.symbol = op'.symbol) : op = op' := by
  have hread := congrArg ofSymbol? h
  rwa [ofSymbol?_symbol, ofSymbol?_symbol, Option.some.injEq] at hread

theorem eq_and_of_isTight {op : Connective} (h : op.isTight = true) : op = and := by
  cases op with
  | and => rfl
  | or | xor | imply => cases h

theorem ofSymbol?_eq_some_iff {c : Char} {op : Connective} :
    ofSymbol? c = some op ↔ c = op.symbol := by
  constructor
  · intro h
    unfold ofSymbol? at h
    split at h
    · cases h; assumption
    · split at h
      · cases h; assumption
      · split at h
        · cases h; assumption
        · split at h
          · cases h; assumption
          · cases h
  · rintro rfl
    exact ofSymbol?_symbol op

end Connective

end PrimeForm
