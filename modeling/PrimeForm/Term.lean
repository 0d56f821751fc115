import PrimeForm.Ascending
import PrimeForm.Digit
import PrimeForm.Minterm

/-!
# Product terms

A product term has one position for each variable. A position asks for the value `0` or `1`, or
leaves the variable open; the term is true in the rows that meet all its positions.

## Main definitions

* `Term` — the positions, first variable first, in lexical order with open positions lowest
* `Term.covers`, `Term.minterms` — the rows in which a term is true
* `Term.combine` — the term that two terms with one opposite position merge into
* `Term.text`, `Term.parse` — terms as text over `0`, `1` and `-`
* `TermError` — why a list of terms or rows is refused

## Main results

* `Term.combine_eq_some_iff_set` — what merges with what, position by position
* `Term.combine_comm`, `Term.ones_of_combine` — the two terms of a merger
* `Term.fixed_of_combine` — a merged term has one fixed position less
-/

namespace PrimeForm

open Std

/-- A product term: for each variable a value, or `none` where the variable is left open. -/
structure Term where
  bits : List (Option Bool)
deriving DecidableEq, Repr

/-- Why a list of terms or of rows is refused. -/
inductive TermError where
  /-- The number of a row exceeds the rows over this many variables. -/
  | mintermOutOfRange (minterm : Minterm) (arity : Nat)
  /-- A character does not stand for a position of a term. -/
  | invalidSymbol (symbol : Char) (position : Nat)
  /-- A term has another number of positions than there are variables. -/
  | widthMismatch (width arity : Nat)
deriving DecidableEq, Repr

/-- The wording of a term error. -/
def TermError.message : TermError → String
  | mintermOutOfRange m n => s!"Minterm {m} out of range for {n} variable(s)"
  | invalidSymbol c p =>
    s!"Invalid term symbol '{c}' at position {p}. Expected 0, 1 or - (don't care)."
  | widthMismatch w n => s!"Term of width {w} does not match {n} variable(s)"

namespace Term

/-- Terms are compared position by position; open comes before `0`, and `0` before `1`. -/
instance : Ord Term := ⟨fun s t => compare s.bits t.bits⟩

theorem compare_eq (s t : Term) : compare s t = compare s.bits t.bits := rfl

instance : TransOrd Term where
  eq_swap := by
    intro s t
    rw [compare_eq, compare_eq]
    exact OrientedOrd.eq_swap
  isLE_trans := by
    intro s t u
    rw [compare_eq, compare_eq, compare_eq]
    exact TransOrd.isLE_trans

instance : LawfulEqOrd Term where
  eq_of_compare := by
    intro s t h
    rw [compare_eq] at h
    cases s; cases t
    exact congrArg Term.mk (LawfulEqOrd.eq_of_compare h)

/-- Number of positions. -/
def width (t : Term) : Nat := t.bits.length

/-- Number of positions that ask for `1`. -/
def ones (t : Term) : Nat := t.bits.count (some true)

/-- Number of open positions. -/
def dontCares (t : Term) : Nat := t.bits.count none

/-- Number of positions that ask for a value. -/
def fixed (t : Term) : Nat := t.bits.countP Option.isSome

/-! ### The rows of a term -/

/-- The term that is true in one row only, of a table over `width` variables. -/
def ofMinterm (m : Minterm) (width : Nat) : Term := ⟨(indexBits m.toNat width).map some⟩

/-- Is the term true in a row? -/
def covers (t : Term) (m : Minterm) : Bool :=
  (t.bits.zip (indexBits m.toNat t.width)).all fun (bit, value) => bit.all (· == value)

/-- A number continued by one bit. The bit that leaves the word on the left is lost. -/
def shiftIn (m : Minterm) (b : Bool) : Minterm := m <<< 1 ||| b.toUInt64

/-- The given numbers, each continued by the bits that a position allows. -/
def extend (ms : List Minterm) : Option Bool → List Minterm
  | some b => ms.map fun m => shiftIn m b
  | none => ms.flatMap fun m => [shiftIn m false, shiftIn m true]

/-- The numbers of all rows in which the term is true, in ascending order. -/
def minterms (t : Term) : List Minterm := (t.bits.foldl extend [0]).mergeSort

/-! ### Merging -/

/-- Compare two lists of positions, the first of which are at `i`, after a difference at the given
position, if there was one. The result is the only difference, provided that the values asked for
there are opposite and the lists are equally long. -/
def differing? (difference : Option Nat) (i : Nat) :
    List (Option Bool) → List (Option Bool) → Option Nat
  | [], [] => difference
  | none :: as, none :: bs => differing? difference (i + 1) as bs
  | some x :: as, some y :: bs =>
    if x = y then differing? difference (i + 1) as bs
    -- At the second difference there is nothing to merge.
    else if difference.isSome then none
    else differing? (some i) (i + 1) as bs
  | _, _ => none

/-- The merger of two terms that are opposite at one position and equal at all others: this position
is left open. -/
def combine (s t : Term) : Option Term :=
  (differing? none 0 s.bits t.bits).map fun i => ⟨s.bits.set i none⟩

theorem differing?_cons (difference : Option Nat) (i : Nat) (a b : Option Bool)
    (as bs : List (Option Bool)) :
    differing? difference i (a :: as) (b :: bs) =
      if a = b then differing? difference (i + 1) as bs
      else if a.isSome ∧ b.isSome ∧ difference = none then differing? (some i) (i + 1) as bs
      else none := by
  cases a <;> cases b <;> cases difference <;> simp [differing?]

/-- After a difference there must be no other. -/
theorem differing?_some_eq_some_iff {as bs : List (Option Bool)} {d i k : Nat} :
    differing? (some d) i as bs = some k ↔ as = bs ∧ d = k := by
  induction as generalizing bs i with
  | nil => cases bs <;> simp [differing?]
  | cons a as ih =>
    cases bs with
    | nil => cases a <;> simp [differing?]
    | cons b bs =>
      rw [differing?_cons]
      by_cases hab : a = b
      · rw [if_pos hab, ih, hab, List.cons.injEq, eq_self, true_and]
      · simp [hab]

/-- The position found is the only one at which the lists differ. -/
theorem differing?_none_eq_some_iff {as bs : List (Option Bool)} {i k : Nat} :
    differing? none i as bs = some k ↔
      ∃ j b, as[j]? = some (some b) ∧ bs = as.set j (some !b) ∧ i + j = k := by
  induction as generalizing bs i with
  | nil => cases bs <;> simp [differing?]
  | cons a as ih =>
    cases bs with
    | nil =>
      have hnone : differing? none i (a :: as) [] = none := by cases a <;> rfl
      rw [hnone]
      refine iff_of_false (by simp) ?_
      rintro ⟨j, b, -, h, -⟩
      cases j <;> cases h
    | cons b bs =>
      rw [differing?_cons]
      by_cases hab : a = b
      · -- Equal first positions: the difference is further on.
        rw [if_pos hab, ih, hab]
        constructor
        · rintro ⟨j, x, hj, rfl, rfl⟩
          exact ⟨j + 1, x, hj, rfl, by omega⟩
        · rintro ⟨j, x, hj, hbs, rfl⟩
          cases j with
          | zero => simp_all
          | succ j => exact ⟨j, x, hj, (List.cons.inj hbs).2, by omega⟩
      · rw [if_neg hab]
        constructor
        · intro h
          split at h
          · -- The first positions are the opposite ones, so all others must be equal.
            rename_i hopposite
            obtain ⟨ha, hb, -⟩ := hopposite
            obtain ⟨x, rfl⟩ := Option.isSome_iff_exists.mp ha
            obtain ⟨y, rfl⟩ := Option.isSome_iff_exists.mp hb
            obtain ⟨rfl, rfl⟩ := differing?_some_eq_some_iff.mp h
            refine ⟨0, x, rfl, ?_, rfl⟩
            cases x <;> cases y <;> simp_all
          · cases h
        · rintro ⟨j, x, hj, hbs, rfl⟩
          cases j with
          | zero =>
            obtain ⟨rfl, rfl⟩ := List.cons.inj hbs
            obtain rfl : a = some x := Option.some.inj hj
            simp [differing?_some_eq_some_iff]
          | succ j =>
            -- An opposite position further on would leave the first positions equal.
            exact absurd (List.cons.inj hbs).1.symm hab

/-- Two terms merge when they are opposite at one position and equal at all others. -/
theorem combine_eq_some_iff_set {s t c : Term} : s.combine t = some c ↔
    ∃ i b, s.bits[i]? = some (some b) ∧ t.bits = s.bits.set i (some !b) ∧
      c.bits = s.bits.set i none := by
  obtain ⟨cs⟩ := c
  simp only [combine, Option.map_eq_some_iff, differing?_none_eq_some_iff, Nat.zero_add,
    Term.mk.injEq]
  constructor
  · rintro ⟨_, ⟨i, b, hi, ht, rfl⟩, rfl⟩
    exact ⟨i, b, hi, ht, rfl⟩
  · rintro ⟨i, b, hi, ht, rfl⟩
    exact ⟨i, ⟨i, b, hi, ht, rfl⟩, rfl⟩

theorem combine_swap {s t c : Term} (h : s.combine t = some c) : t.combine s = some c := by
  obtain ⟨i, b, hi, ht, hc⟩ := combine_eq_some_iff_set.mp h
  obtain ⟨hlt, hb⟩ := List.getElem?_eq_some_iff.mp hi
  refine combine_eq_some_iff_set.mpr ⟨i, !b, ?_, ?_, ?_⟩
  · rw [ht, List.getElem?_set_self hlt]
  · rw [ht, List.set_set, Bool.not_not, ← hb, List.set_getElem_self]
  · rw [ht, List.set_set, hc]

/-- Merging does not depend on the order of the two terms. -/
theorem combine_comm (s t : Term) : s.combine t = t.combine s :=
  Option.ext fun _ => ⟨combine_swap, combine_swap⟩

/-- Of two terms that merge, one asks for a single `1` more than the other. -/
theorem ones_of_combine {s t c : Term} (h : s.combine t = some c) :
    t.ones = s.ones + 1 ∨ s.ones = t.ones + 1 := by
  obtain ⟨i, b, hi, ht, -⟩ := combine_eq_some_iff_set.mp h
  obtain ⟨hlt, hb⟩ := List.getElem?_eq_some_iff.mp hi
  rw [ones, ones, ht, List.count_set hlt, hb]
  cases b with
  | false => exact Or.inl (by simp)
  | true =>
    have hpos : 0 < s.bits.count (some true) := List.count_pos_iff.mpr (List.mem_of_getElem? hi)
    right
    rw [Bool.not_true, if_pos (by decide), if_neg (by decide)]
    omega

/-- A merged term has one fixed position less. -/
theorem fixed_of_combine {s t c : Term} (h : s.combine t = some c) : c.fixed + 1 = s.fixed := by
  obtain ⟨i, b, hi, -, hc⟩ := combine_eq_some_iff_set.mp h
  obtain ⟨hlt, hb⟩ := List.getElem?_eq_some_iff.mp hi
  have hpos : 0 < s.bits.countP Option.isSome :=
    List.countP_pos_iff.mpr ⟨some b, List.mem_of_getElem? hi, rfl⟩
  rw [fixed, fixed, hc, List.countP_set hlt, hb]
  simp only [Option.isSome_some, Option.isSome_none, if_true, Bool.false_eq_true, if_false]
  omega

/-! ### Terms as text -/

/-- The character of a position. -/
def symbol : Option Bool → Char
  | some b => Digit.ofBool b
  | none => '-'

/-- The position that a character stands for, if any. -/
def position? (c : Char) : Option (Option Bool) :=
  if c = '-' then some none else (Digit.toBool? c).map some

/-- The characters of a term. -/
def symbols (t : Term) : List Char := t.bits.map symbol

/-- The text of a term. -/
def text (t : Term) : String := String.ofList t.symbols

instance : ToString Term := ⟨text⟩

/-- The positions that the characters stand for; the first of them is at `start`. -/
def bitsOfChars (start : Nat) : List Char → Except TermError (List (Option Bool))
  | [] => .ok []
  | c :: cs =>
    match position? c with
    | none => .error (.invalidSymbol c start)
    | some bit => (bitsOfChars (start + 1) cs).map (bit :: ·)

/-- The term that a text stands for, or the first character that does not belong to a term. -/
def parse (text : String) : Except TermError Term := (bitsOfChars 0 text.toList).map Term.mk

@[simp] theorem position?_symbol (bit : Option Bool) : position? (symbol bit) = some bit := by
  cases bit with
  | none => rfl
  | some b => cases b <;> rfl

@[simp] theorem toList_text (t : Term) : t.text.toList = t.symbols := String.toList_ofList

end Term

end PrimeForm
