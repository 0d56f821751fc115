import PrimeForm.Digit
import PrimeForm.Formula.Basic
import PrimeForm.Formula.SyntaxError

/-!
# Reading formulas

The grammar has two levels of connectives, and a chain of either level nests to the right:

    expression  ::=  conjunction  |  conjunction ('|' or '^' or '>') expression
    conjunction ::=  factor  |  factor '&' conjunction
    factor      ::=  operand  |  '!' operand
    operand     ::=  letter  |  digit  |  group
    group       ::=  '(' expression ')'

Opening one of the rules `expression`, `conjunction` and `group` inside another costs one level,
and the number of levels is limited. The limit is what the reader recurses on.

## Main definitions

* `Unread` — the part of a text that is still to be read
* `Rule` — the rules that cost a level
* `readOperand`, `readFactor`, `readChain`, `readGroup` — what the rules have in common
* `readRule` — a formula at the front of a text, and what follows it
* `Formula.ofChars`, `Formula.parse` — a whole text as a formula
-/

namespace PrimeForm

/-- The part of a text that is still to be read, and the position of its first character. -/
structure Unread where
  position : Nat
  chars : List Char
deriving DecidableEq, Repr

namespace Unread

/-- What is left after the first character. -/
def next : Unread → Unread
  | ⟨p, []⟩ => ⟨p, []⟩
  | ⟨p, _ :: cs⟩ => ⟨p + 1, cs⟩

/-- The connective of the tight or of the loose level that the text starts with. -/
def connective? (r : Unread) (tight : Bool) : Option Connective :=
  (r.chars.head?.bind Connective.ofSymbol?).filter fun op => op.isTight == tight

/-- The error of a given cause at the front of the text. -/
def fail {α : Type} (r : Unread) (cause : SyntaxError.Cause) : Except SyntaxError α :=
  .error ⟨r.position, cause⟩

end Unread

/-- The rules of the grammar that cost a level when they are opened. -/
inductive Rule where
  | expression
  | conjunction
  | group
deriving DecidableEq, Repr

/-- A formula read from the front of a text with what follows it, or the reason why there is
none. -/
abbrev Reading := Except SyntaxError (Formula × Unread)

/-- The negation of a formula, if `negated`, and the formula itself otherwise. -/
def Formula.negateIf (negated : Bool) (φ : Formula) : Formula := if negated then .neg φ else φ

/-- Read an operand, to be negated if `negated`; `group` reads a group from its opening parenthesis
on. A negated digit is the opposite literal. -/
def readOperand (group : Unread → Reading) (negated : Bool) (r : Unread) : Reading :=
  match r.chars with
  | [] => r.fail (.operandExpected none)
  | c :: _ =>
    match Digit.toBool? c with
    | some b => .ok (.literal (b != negated), r.next)
    | none =>
      if c.isAlpha then .ok (.negateIf negated (.var c r.position), r.next)
      else if c = '(' then do
        let (φ, s) ← group r
        return (.negateIf negated φ, s)
      else r.fail (.operandExpected (some c))

/-- Read a factor: an operand with or without a negation sign in front. -/
def readFactor (group : Unread → Reading) (r : Unread) : Reading :=
  if r.chars.head? = some '!' then readOperand group true r.next
  else readOperand group false r

/-- Read a chain: an operand and, behind a connective of the tight or of the loose level, the rest
of the chain. -/
def readChain (operand chain : Unread → Reading) (tight : Bool) (r : Unread) : Reading := do
  let (φ, s) ← operand r
  match s.connective? tight with
  | none => return (φ, s)
  | some op =>
    -- The right operand takes the rest of the chain, so one connective is all there is to see.
    let (ψ, t) ← chain s.next
    return (.binary op φ ψ s.position, t)

/-- Read a group. The opening parenthesis has been seen already. -/
def readGroup (expression : Unread → Reading) (r : Unread) : Reading := do
  let (φ, s) ← expression r.next
  match s.chars with
  | ')' :: _ => return (φ, s.next)
  | found => s.fail (.closingExpected found.head?)

/-- Read the text that a rule matches, with at most `levels` rules open, this one included. -/
def readRule : (levels : Nat) → Rule → Unread → Reading
  | 0, _, r => r.fail .tooDeep
  | levels + 1, .expression, r =>
    readChain (readRule levels .conjunction) (readRule levels .expression) false r
  | levels + 1, .conjunction, r =>
    readChain (readFactor (readRule levels .group)) (readRule levels .conjunction) true r
  | levels + 1, .group, r => readGroup (readRule levels .expression) r

namespace Formula

/-- Read all of a text as one expression with at most `levels` rules open. -/
def ofCharsWithin (levels : Nat) (cs : List Char) : Except SyntaxError Formula := do
  let (φ, r) ← readRule levels .expression ⟨0, cs⟩
  match r.chars with
  | [] => return φ
  | c :: _ => r.fail (.trailing c)

/-- The formula that the characters spell. -/
def ofChars (cs : List Char) : Except SyntaxError Formula := ofCharsWithin maxNesting cs

/-- The formula that a text spells. Blank characters are not part of the grammar. -/
def parse (text : String) : Except ParseError Formula :=
  (ofChars text.toList).mapError fun e => ⟨e, text⟩

end Formula

end PrimeForm
