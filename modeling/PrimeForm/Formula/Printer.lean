import PrimeForm.Digit
import PrimeForm.Formula.Basic

/-!
# Formulas as text

Two ways to write a formula. The plain text sets only the parentheses that the precedence of the
connectives calls for; the explicit text encloses every connective and every negated operand.

## Main definitions

* `Formula.symbols` — the characters of the plain text
* `Formula.explicitSymbols` — the characters of the explicit text
* `Formula.write` — the plain text in front of another text, in one pass
* `Formula.text`, `Formula.explicitText` — both texts as strings

## Main results

* `Formula.write_eq` — what the one pass writes is the plain text
-/

namespace PrimeForm

namespace Formula

/-- How firmly a formula holds together beside a connective: a binary formula by the precedence of
its connective, and every other formula more firmly than any connective. -/
def strength : Formula → Nat
  | binary op _ _ _ => op.precedence
  | _ => 3

/-- Is the formula written as a single character? -/
def isAtom : Formula → Bool
  | var _ _ | literal _ => true
  | _ => false

/-- A text in parentheses if `needed`, and as it is otherwise. -/
def enclose (needed : Bool) (cs : List Char) : List Char :=
  if needed then '(' :: (cs ++ [')']) else cs

/-- The characters of a formula with the fewest parentheses that keep its shape. A chain of
connectives of one level nests to the right, so a left operand of the same level is enclosed and
a right one is not. -/
def symbols : Formula → List Char
  | var x _ => [x]
  | literal b => [Digit.ofBool b]
  | neg φ => '!' :: enclose (!φ.isAtom) φ.symbols
  | binary op φ ψ _ =>
    enclose (φ.strength ≤ op.precedence) φ.symbols ++
      op.symbol :: enclose (ψ.strength < op.precedence) ψ.symbols

/-- The characters of a formula with a pair of parentheses for every connective and every
negation. -/
def explicitSymbols : Formula → List Char
  | var x _ => [x]
  | literal b => [Digit.ofBool b]
  | neg φ => '!' :: enclose true φ.explicitSymbols
  | binary op φ ψ _ => enclose true (φ.explicitSymbols ++ op.symbol :: ψ.explicitSymbols)

/-- A text written in front of `rest`, in parentheses if `needed`. -/
def writeEnclosed (needed : Bool) (write : List Char → List Char) (rest : List Char) : List Char :=
  if needed then '(' :: write (')' :: rest) else write rest

/-- The characters of a formula written in front of `rest`. -/
def write : Formula → List Char → List Char
  | var x _, rest => x :: rest
  | literal b, rest => Digit.ofBool b :: rest
  | neg φ, rest => '!' :: writeEnclosed (!φ.isAtom) φ.write rest
  | binary op φ ψ _, rest =>
    writeEnclosed (φ.strength ≤ op.precedence) φ.write
      (op.symbol :: writeEnclosed (ψ.strength < op.precedence) ψ.write rest)

theorem writeEnclosed_eq {write : List Char → List Char} {cs : List Char}
    (h : ∀ rest, write rest = cs ++ rest) (needed : Bool) (rest : List Char) :
    writeEnclosed needed write rest = enclose needed cs ++ rest := by
  cases needed <;> simp [writeEnclosed, enclose, h]

theorem write_eq (φ : Formula) (rest : List Char) : φ.write rest = φ.symbols ++ rest := by
  induction φ generalizing rest with
  | var x p => rfl
  | literal b => rfl
  | neg φ ih => simp [write, symbols, writeEnclosed_eq ih]
  | binary op φ ψ p ihφ ihψ =>
    simp only [write, symbols, writeEnclosed_eq ihφ, writeEnclosed_eq ihψ, List.append_assoc,
      List.cons_append]

/-- The plain text of a formula. -/
def text (φ : Formula) : String := String.ofList (φ.write [])

/-- The explicit text of a formula. -/
def explicitText (φ : Formula) : String := String.ofList φ.explicitSymbols

instance : ToString Formula := ⟨text⟩

@[simp] theorem toList_text (φ : Formula) : φ.text.toList = φ.symbols := by
  simp [text, write_eq]

@[simp] theorem toList_explicitText (φ : Formula) : φ.explicitText.toList = φ.explicitSymbols :=
  String.toList_ofList

end Formula

end PrimeForm
