import PrimeForm.Proofs.Grammar.Printing

/-!
# The plain text is a shortest one

A text that is read as a formula has all that the plain text of the formula has: the characters of
the plain text occur in it, in the same order, except that a digit may have been the opposite one
behind a negation sign. What the text has beyond that are parentheses, and the signs of digits. So
no text of a formula is shorter than its plain text, and none has fewer parentheses.

## Main definitions

* `Digit.blur` — the characters with the digits made alike
* `OccursIn` — a text that is contained in another, up to the digits

## Main results

* `Derivation.symbols_occursIn_chars` — the plain text is contained in every text of its formula
* `text_shortest` — the lengths and the parentheses of both
-/

namespace PrimeForm

/-- A character, with the digit `0` for both digits. -/
def Digit.blur (c : Char) : Char := if (Digit.toBool? c).isSome then '0' else c

@[simp] theorem Digit.blur_ofBool (b : Bool) : Digit.blur (Digit.ofBool b) = '0' := by
  rw [Digit.blur, Digit.toBool?_ofBool, Option.isSome_some, if_pos rfl]

theorem Digit.blur_eq_iff {c c' : Char} (hc : Digit.toBool? c = none) :
    Digit.blur c' = c ↔ c' = c := by
  rw [Digit.blur]
  split
  · rename_i hdigit
    -- The first character is a digit on both sides, and the second one is none.
    refine iff_of_false ?_ ?_
    · rintro rfl
      cases hc
    · rintro rfl
      rw [hc] at hdigit
      cases hdigit
  · exact Iff.rfl

/-- The characters of a text occur in another one, in the same order. Digits count as alike. -/
def OccursIn (cs cs' : List Char) : Prop := (cs.map Digit.blur).Sublist (cs'.map Digit.blur)

namespace OccursIn

variable {cs cs' ds ds' es : List Char}

theorem refl (cs : List Char) : OccursIn cs cs := List.Sublist.refl _

theorem trans (h : OccursIn cs ds) (h' : OccursIn ds es) : OccursIn cs es := List.Sublist.trans h h'

theorem append (h : OccursIn cs ds) (h' : OccursIn cs' ds') : OccursIn (cs ++ cs') (ds ++ ds') := by
  rw [OccursIn, List.map_append, List.map_append]
  exact List.Sublist.append h h'

theorem cons (c : Char) (h : OccursIn cs ds) : OccursIn (c :: cs) (c :: ds) :=
  List.Sublist.cons_cons _ h

/-- Parentheses may be left out, but not added. -/
theorem enclose {needed needed' : Bool} (hneeded : needed = true → needed' = true)
    (h : OccursIn cs ds) :
    OccursIn (Formula.enclose needed cs) (Formula.enclose needed' ds) := by
  have hinner : OccursIn cs (Formula.enclose needed' ds) := by
    cases needed' with
    | false => exact h
    | true =>
      apply List.Sublist.cons
      rw [List.map_append]
      exact List.Sublist.trans h (List.sublist_append_left _ _)
  cases needed with
  | false => exact hinner
  | true =>
    rw [hneeded rfl]
    exact (h.append (refl [')'])).cons '('

theorem length_le (h : OccursIn cs ds) : cs.length ≤ ds.length := by
  have hmap := List.Sublist.length_le h
  rwa [List.length_map, List.length_map] at hmap

/-- A character that is no digit does not occur more often. -/
theorem count_le (h : OccursIn cs ds) {c : Char} (hc : Digit.toBool? c = none) :
    cs.count c ≤ ds.count c := by
  have hmap (es : List Char) : (es.map Digit.blur).count c = es.count c := by
    rw [List.count, List.countP_map]
    exact List.countP_congr fun c' _ => by simp [Digit.blur_eq_iff hc]
  rw [← hmap cs, ← hmap ds]
  exact List.Sublist.count_le c h

end OccursIn

namespace Formula

variable {φ : Formula}

@[simp] theorem strength_unplaced (φ : Formula) : φ.unplaced.strength = φ.strength := by
  cases φ <;> rfl

@[simp] theorem isAtom_unplaced (φ : Formula) : φ.unplaced.isAtom = φ.isAtom := by
  cases φ <;> rfl

/-- The plain text does not show positions. -/
theorem symbols_unplaced (φ : Formula) : φ.unplaced.symbols = φ.symbols := by
  induction φ with
  | var x p | literal b => rfl
  | neg φ ih => rw [unplaced, symbols, symbols, ih, isAtom_unplaced]
  | binary op φ ψ p ihφ ihψ =>
    rw [unplaced, symbols, symbols, ihφ, ihψ, strength_unplaced, strength_unplaced]

/-- A formula needs parentheses in an inner place if it needs them in an outer one. -/
theorem occursIn_enclose_strength {m n : Nat} (hmn : m ≤ n) (cs : List Char) :
    OccursIn (enclose (φ.strength < m) cs) (enclose (φ.strength < n) cs) := by
  refine (OccursIn.refl cs).enclose fun h => decide_eq_true ?_
  exact Nat.lt_of_lt_of_le (of_decide_eq_true h) hmn

end Formula

namespace Derivation

variable {k : Category}

/-- The plain text of a formula, in parentheses if the place calls for them, is contained in the
text of every derivation of the formula for this place. -/
theorem symbols_occursIn_chars (d : Derivation k) (p : Nat) :
    OccursIn (Formula.enclose ((d.placed p).strength < k.strength) (d.placed p).symbols)
      d.chars := by
  induction d generalizing p with
  | ofConjunction d ih => exact (Formula.occursIn_enclose_strength (by decide) _).trans (ih p)
  | loose d op hop e ihd ihe =>
    rw [placed, Formula.enclose_expression, Formula.symbols_loose hop]
    exact (ihd p).append ((ihe _).cons op.symbol)
  | ofFactor d ih => exact (Formula.occursIn_enclose_strength (by decide) _).trans (ih p)
  | tight d e ihd ihe =>
    -- A conjunction has the strength of its place, so it is not put in parentheses itself.
    rw [placed, Formula.symbols_tight]
    exact (ihd p).append ((ihe _).cons Connective.and.symbol)
  | letter negated x hx => cases negated <;> exact OccursIn.refl _
  | digit negated b =>
    -- The plain text has the digit that the sign turns the digit into.
    have hdigit (b' : Bool) : OccursIn [Digit.ofBool b'] [Digit.ofBool b] := by
      rw [OccursIn, List.map_singleton, List.map_singleton, Digit.blur_ofBool, Digit.blur_ofBool]
    cases negated with
    | false => exact hdigit _
    | true => exact List.Sublist.cons _ (hdigit _)
  | group negated d ih =>
    have hinner := ih (p + negated.toNat + 1)
    rw [Formula.enclose_expression] at hinner
    have hgroup (needed : Bool) :
        OccursIn (Formula.enclose needed (d.placed (p + negated.toNat + 1)).symbols)
          (Formula.enclose true d.chars) :=
      hinner.enclose fun _ => rfl
    cases negated with
    | false => exact hgroup _
    | true => exact (hgroup _).cons '!'

end Derivation

namespace Formula

variable {φ ψ : Formula} {s t : String}

theorem symbols_occursIn_of_parse (h : parse s = .ok φ) : OccursIn φ.symbols s.toList := by
  obtain ⟨d, hd, -, rfl⟩ := parse_eq_ok_iff.mp h
  have hchars := d.symbols_occursIn_chars 0
  rwa [enclose_expression, hd] at hchars

/-- No text of a formula is shorter than its plain text or has fewer parentheses. -/
theorem text_le_of_parse (h : parse t = .ok ψ) (hψ : ψ.unplaced = φ.unplaced) :
    φ.text.length ≤ t.length ∧ φ.text.toList.count '(' ≤ t.toList.count '(' ∧
      φ.text.toList.count ')' ≤ t.toList.count ')' := by
  have hoccurs := symbols_occursIn_of_parse h
  rw [← symbols_unplaced, hψ, symbols_unplaced] at hoccurs
  rw [← String.length_toList, ← String.length_toList, toList_text]
  exact ⟨hoccurs.length_le, hoccurs.count_le rfl, hoccurs.count_le rfl⟩

end Formula

/-- The plain text of a formula that has been read from a text is no longer than that text and has
no more parentheses. The same is true beside every other text that is read as this formula, up to
positions. -/
theorem text_shortest {s : String} {φ : Formula} (h : Formula.parse s = .ok φ) :
    (φ.text.length ≤ s.length ∧ φ.text.toList.count '(' ≤ s.toList.count '(' ∧
      φ.text.toList.count ')' ≤ s.toList.count ')') ∧
    ∀ t ψ, Formula.parse t = .ok ψ → ψ.unplaced = φ.unplaced →
      φ.text.length ≤ t.length ∧ φ.text.toList.count '(' ≤ t.toList.count '(' ∧
        φ.text.toList.count ')' ≤ t.toList.count ')' :=
  ⟨Formula.text_le_of_parse h rfl, fun _ _ => Formula.text_le_of_parse⟩

/-- Two texts of one formula, each with parentheses that its plain text does without. -/
theorem text_shortest_group :
    ∃ φ ψ, Formula.parse "((a|!0))&(c)" = .ok φ ∧ Formula.parse "(a|(1))&c" = .ok ψ ∧
      φ.text = "(a|1)&c" ∧ φ.text.length ≤ "((a|!0))&(c)".length ∧
      φ.text.length ≤ "(a|(1))&c".length := by
  have hφ : Formula.parse "((a|!0))&(c)" =
      .ok (.binary .and (.binary .or (.var 'a' 2) (.literal true) 3) (.var 'c' 10) 8) := by rfl
  have hψ : Formula.parse "(a|(1))&c" =
      .ok (.binary .and (.binary .or (.var 'a' 1) (.literal true) 2) (.var 'c' 8) 7) := by rfl
  obtain ⟨⟨hlength, -⟩, hall⟩ := text_shortest hφ
  exact ⟨_, _, hφ, hψ, rfl, hlength, (hall _ _ hψ rfl).1⟩

end PrimeForm
