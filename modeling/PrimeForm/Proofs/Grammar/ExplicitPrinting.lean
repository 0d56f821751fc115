import PrimeForm.Proofs.Grammar.Printing

/-!
# The explicit text and the grammar

The explicit text of a formula is spelled by a derivation that puts every binary formula and every
negated operand in parentheses. Unlike the plain text it keeps all of the formula, the negations of
literals included. Its parentheses cost levels, though: three for every connective and every
negation on a branch, and one more for each right operand.

## Main definitions

* `Formula.explicitDerivation` — the derivation that spells the explicit text
* `Formula.explicitLevels` — the levels that the explicit text takes as a factor

## Main results

* `Formula.chars_explicitDerivation`, `Formula.tree_explicitDerivation`,
  `Formula.levels_explicitDerivation` — its text, its formula and its levels
* `parse_text_of_evalTraced` — what is read from the text that an evaluation writes
-/

namespace PrimeForm

namespace Formula

variable {φ : Formula} {σ : Assignment}

/-- The derivation that spells the explicit text of a formula. Every formula is a factor there. -/
def explicitDerivation : (φ : Formula) → φ.Lettered → Derivation .factor
  | var x _, h => .letter false x h
  | literal b, _ => .digit false b
  | neg φ, h => .group true ((φ.explicitDerivation h.operand).within .expression)
  | binary op φ ψ _, h =>
    let d := φ.explicitDerivation h.left
    let e := ψ.explicitDerivation h.right
    match hop : op.isTight with
    | true => .group false ((Derivation.tight d (e.within .conjunction)).within .expression)
    | false => .group false (.loose (d.within .conjunction) op hop (e.within .expression))

/-- The levels of the explicit text as a factor. The rules from an expression down to a factor are
all opened between the parentheses, and the rule of the connective once more for the right
operand. -/
def explicitLevels : Formula → Nat
  | var _ _ | literal _ => 0
  | neg φ => φ.explicitLevels + 3
  | binary _ φ ψ _ => max φ.explicitLevels (ψ.explicitLevels + 1) + 3

theorem chars_explicitDerivation (φ : Formula) (h : φ.Lettered) :
    (φ.explicitDerivation h).chars = φ.explicitSymbols := by
  induction φ with
  | var x p => rfl
  | literal b => rfl
  | neg φ ih =>
    rw [explicitSymbols, ← ih h.operand]
    rfl
  | binary op φ ψ p ihφ ihψ =>
    rw [explicitSymbols, ← ihφ h.left, ← ihψ h.right, explicitDerivation]
    split
    · rename_i hop
      obtain rfl := Connective.eq_and_of_isTight hop
      rfl
    · rfl

/-- The derivation describes the formula, with all of its negations. -/
theorem tree_explicitDerivation (φ : Formula) (h : φ.Lettered) :
    (φ.explicitDerivation h).tree = φ.unplaced := by
  induction φ with
  | var x p => rfl
  | literal b => exact congrArg literal (Bool.bne_false b)
  | neg φ ih => exact congrArg neg (ih h.operand)
  | binary op φ ψ p ihφ ihψ =>
    rw [unplaced, ← ihφ h.left, ← ihψ h.right, explicitDerivation]
    split
    · rename_i hop
      obtain rfl := Connective.eq_and_of_isTight hop
      rfl
    · rfl

/-- A connective costs the same on either level. -/
theorem levels_explicitDerivation (φ : Formula) (h : φ.Lettered) :
    (φ.explicitDerivation h).levels = φ.explicitLevels := by
  induction φ with
  | var x p => rfl
  | literal b => rfl
  | neg φ ih =>
    rw [explicitLevels, ← ih h.operand]
    rfl
  | binary op φ ψ p ihφ ihψ =>
    rw [explicitLevels, ← ihφ h.left, ← ihψ h.right, explicitDerivation]
    split
    · rfl
    · simp only [Derivation.within, Derivation.levels]
      omega

theorem chars_explicitDerivation_within (h : φ.Lettered) :
    ((φ.explicitDerivation h).within .expression).chars = φ.explicitText.toList := by
  rw [Derivation.chars_within, chars_explicitDerivation, toList_explicitText]
  rfl

/-- An evaluation under values for all variables of the formula writes the explicit text. -/
theorem evalTraced_eq_ok_of_isSome (hσ : ∀ x ∈ φ.names, (σ.value? x).isSome = true) :
    φ.evalTraced σ = .ok (φ.value σ.valuation, φ.explicitText) := by
  rw [evalTraced_eq, eval_eq_ok_of_isSome hσ]
  rfl

end Formula

/-- The text that an evaluation of a formula over letters writes is read as the formula again, with
all of its negations, if the derivation of the text is within the limit. Otherwise, and only then,
the text is refused, and this for its nesting. -/
theorem parse_text_of_evalTraced {φ : Formula} {σ : Assignment}
    (hletters : ∀ x ∈ φ.names, x.isAlpha = true)
    (hσ : ∀ x ∈ φ.names, (σ.value? x).isSome = true) :
    ∃ b text, φ.evalTraced σ = .ok (b, text) ∧
      ∃ d : Derivation .expression,
        (∀ d' : Derivation .expression, d'.chars = text.toList ↔ d' = d) ∧
        d.levels = φ.explicitLevels + 2 ∧
        ((∃ ψ, Formula.parse text = .ok ψ ∧ ψ.unplaced = φ.unplaced) ↔ d.levels ≤ maxNesting) ∧
        ((∃ q, Formula.parse text = .error ⟨⟨q, .tooDeep⟩, text⟩) ↔ maxNesting < d.levels) := by
  have htext := Formula.evalTraced_eq_ok_of_isSome hσ
  have h : φ.Lettered := Formula.lettered_iff.mpr hletters
  let d := (φ.explicitDerivation h).within .expression
  have hchars : d.chars = φ.explicitText.toList := Formula.chars_explicitDerivation_within h
  have hread (hlevels : d.levels ≤ maxNesting) :
      ∃ ψ, Formula.parse φ.explicitText = .ok ψ ∧ ψ.unplaced = φ.unplaced := by
    have htree : d.tree = φ.unplaced := by
      rw [Derivation.tree_within, Formula.tree_explicitDerivation]
    rw [← htree]
    exact Formula.exists_parse_eq_ok d hchars hlevels
  have hrefused (hlevels : maxNesting < d.levels) :
      ∃ q, Formula.parse φ.explicitText = .error ⟨⟨q, .tooDeep⟩, φ.explicitText⟩ :=
    Formula.exists_parse_eq_tooDeep d hchars hlevels
  -- The two outcomes exclude each other.
  have hexclusive {ψ : Formula} {q : Nat} (hok : Formula.parse φ.explicitText = .ok ψ)
      (herror : Formula.parse φ.explicitText = .error ⟨⟨q, .tooDeep⟩, φ.explicitText⟩) : False := by
    rw [hok] at herror
    cases herror
  refine ⟨_, φ.explicitText, htext, d, fun d' => ?_, ?_, ⟨fun hok => ?_, hread⟩,
    ⟨fun herror => ?_, hrefused⟩⟩
  · rw [← hchars]
    exact ⟨Derivation.eq_of_chars_eq, congrArg Derivation.chars⟩
  · exact congrArg (· + 2) (φ.levels_explicitDerivation h)
  · by_contra hlevels
    obtain ⟨ψ, hψ, -⟩ := hok
    obtain ⟨q, hq⟩ := hrefused (Nat.lt_of_not_le hlevels)
    exact hexclusive hψ hq
  · by_contra hlevels
    obtain ⟨q, hq⟩ := herror
    obtain ⟨ψ, hψ, -⟩ := hread (Nat.le_of_not_lt hlevels)
    exact hexclusive hψ hq

/-- The negation of a literal keeps its parentheses, and is not carried out when it is read. -/
theorem parse_text_of_evalTraced_negated_literal :
    (Formula.neg (.binary .or (.neg (.literal false)) (.var 'a' 7) 4)).evalTraced
        (Assignment.empty.set 'a' true) = .ok (false, "!((!(0)|a))") ∧
      ∃ ψ, Formula.parse "!((!(0)|a))" = .ok ψ ∧
        ψ.unplaced = .neg (.join .or (.neg (.literal false)) (.ofName 'a')) := by
  have hrun : (Formula.neg (.binary .or (.neg (.literal false)) (.var 'a' 7) 4)).evalTraced
      (Assignment.empty.set 'a' true) = .ok (false, "!((!(0)|a))") := rfl
  obtain ⟨b, text, htext, d, -, hlevels, hread, -⟩ :=
    parse_text_of_evalTraced (φ := .neg (.binary .or (.neg (.literal false)) (.var 'a' 7) 4))
      (σ := Assignment.empty.set 'a' true) (by simp) (by simp)
  obtain ⟨-, rfl⟩ := Prod.mk.inj (Except.ok.inj (hrun.symm.trans htext))
  exact ⟨hrun, hread.mpr (by rw [hlevels]; decide)⟩

end PrimeForm
