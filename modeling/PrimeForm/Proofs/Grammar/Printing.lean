import PrimeForm.Formula.Printer
import PrimeForm.Proofs.Formula.Value
import PrimeForm.Proofs.Grammar.Reading

/-!
# Printing and the grammar

The plain text of a formula is spelled by a derivation that puts an operand in parentheses only
where the grammar has no other place for it. This derivation describes the formula again, but for
one thing: the negation of a literal is written like the opposite literal. Of all derivations that
describe the formula it nests least deeply, so a formula that has been read from a text can always
be read from its plain text.

## Main definitions

* `Derivation.within` — a derivation of one category as one of another
* `Formula.derivation` — the derivation that spells the plain text
* `Formula.foldLiterals` — the formula with the negations of literals carried out

## Main results

* `Formula.chars_derivation`, `Formula.tree_derivation` — its text and its formula
* `Derivation.levels_derivation_placed_le` — no derivation of the formula nests less deeply
* `parse_text` — what is read from the plain text of a formula
* `parse_text_of_parse_iff` — when this is the formula again
-/

namespace PrimeForm

/-- How firmly the texts of a category hold together, on the scale of `Formula.strength`. -/
def Category.strength : Category → Nat
  | expression => 1
  | conjunction => 2
  | factor => 3

/-- The category whose derivations are turned into derivations of this one: an expression may be a
conjunction, a conjunction may be a factor, and a factor may be an expression in parentheses. -/
def Category.inner : Category → Category
  | expression => conjunction
  | conjunction => factor
  | factor => expression

namespace Derivation

/-- A derivation as one of another category, in parentheses if it does not hold together firmly
enough. -/
def within : {j : Category} → Derivation j → (k : Category) → Derivation k
  | .expression, d, .expression => d
  | .expression, d, .conjunction => .ofFactor (.group false d)
  | .expression, d, .factor => .group false d
  | .conjunction, d, .expression => .ofConjunction d
  | .conjunction, d, .conjunction => d
  | .conjunction, d, .factor => .group false (.ofConjunction d)
  | .factor, d, .expression => .ofConjunction (.ofFactor d)
  | .factor, d, .conjunction => .ofFactor d
  | .factor, d, .factor => d

variable {j k : Category}

theorem chars_within (d : Derivation j) :
    (d.within k).chars = Formula.enclose (j.strength < k.strength) d.chars := by
  cases j <;> cases k <;> rfl

theorem tree_within (d : Derivation j) : (d.within k).tree = d.tree := by
  cases j <;> cases k <;> rfl

/-- Every turn costs at most one level. -/
theorem levels_within_le (d : Derivation j) (k : Category) :
    (d.within k).levels ≤ (d.within k.inner).levels + 1 := by
  cases j <;> cases k <;> simp only [within, Category.inner, levels] <;> omega

end Derivation

namespace Formula

variable {φ ψ : Formula} {op : Connective} {p : Nat} {k : Category}

/-- All variables are named by letters. -/
def Lettered : Formula → Prop
  | var x _ => x.isAlpha = true
  | literal _ => True
  | neg φ => φ.Lettered
  | binary _ φ ψ _ => φ.Lettered ∧ ψ.Lettered

theorem Lettered.operand (h : (neg φ).Lettered) : φ.Lettered := h

theorem Lettered.left (h : (binary op φ ψ p).Lettered) : φ.Lettered := And.left h

theorem Lettered.right (h : (binary op φ ψ p).Lettered) : ψ.Lettered := And.right h

theorem lettered_iff : φ.Lettered ↔ ∀ x ∈ φ.names, x.isAlpha = true := by
  induction φ with
  | var x p => simp [Lettered]
  | literal b => simp [Lettered]
  | neg φ ih => simp [Lettered, ih]
  | binary op φ ψ p ihφ ihψ => simp [Lettered, ihφ, ihψ, or_imp, forall_and]

/-- A formula behind a negation sign. Only what is more than a letter or a digit is spelled by its
derivation, in parentheses. -/
def negation : (φ : Formula) → φ.Lettered → Derivation .expression → Derivation .factor
  | var x _, h, _ => .letter true x h
  | literal b, _, _ => .digit true b
  | neg _, _, d => .group true d
  | binary _ _ _ _, _, d => .group true d

/-- The derivation that spells the plain text of a formula, as one of a given category. -/
def derivation : (φ : Formula) → φ.Lettered → (k : Category) → Derivation k
  | var x _, h, k => (Derivation.letter false x h).within k
  | literal b, _, k => (Derivation.digit false b).within k
  | neg φ, h, k => (φ.negation h.operand (φ.derivation h.operand .expression)).within k
  | binary op φ ψ _, h, k =>
    match hop : op.isTight with
    | true =>
      (Derivation.tight (φ.derivation h.left .factor) (ψ.derivation h.right .conjunction)).within k
    | false =>
      (Derivation.loose (φ.derivation h.left .conjunction) op hop
        (ψ.derivation h.right .expression)).within k

/-- The formula with the negations of literals carried out, each once. -/
def foldLiterals : Formula → Formula
  | var x p => var x p
  | literal b => literal b
  | neg (literal b) => literal (!b)
  | neg φ => neg φ.foldLiterals
  | binary op φ ψ p => binary op φ.foldLiterals ψ.foldLiterals p

/-- Under two signs, it is the inner one that is carried out. -/
example (b : Bool) : (neg (neg (literal b))).foldLiterals = neg (literal (!b)) := rfl

/-! ### The text -/

/-- An expression is never put in parentheses. -/
theorem enclose_expression (φ : Formula) (cs : List Char) :
    enclose (φ.strength < Category.expression.strength) cs = cs := by
  cases φ with
  | var x p | literal b | neg φ => rfl
  | binary op φ ψ p => cases op <;> rfl

/-- The operands of a conjunction stand where the grammar expects a factor and a conjunction. -/
theorem symbols_tight : (binary .and φ ψ p).symbols =
    enclose (φ.strength < Category.factor.strength) φ.symbols ++
      Connective.and.symbol :: enclose (ψ.strength < Category.conjunction.strength) ψ.symbols := by
  have hleft : decide (φ.strength ≤ 2) = decide (φ.strength < 3) :=
    decide_eq_decide.mpr Nat.lt_succ_iff.symm
  exact congrArg (fun b => enclose b φ.symbols ++ _) hleft

/-- The operands of a connective of the loose level stand where the grammar expects a conjunction
and an expression. -/
theorem symbols_loose (hop : op.isTight = false) : (binary op φ ψ p).symbols =
    enclose (φ.strength < Category.conjunction.strength) φ.symbols ++
      op.symbol :: enclose (ψ.strength < Category.expression.strength) ψ.symbols := by
  have hprecedence : op.precedence = 1 := by rw [Connective.precedence, hop]; rfl
  have hleft : decide (φ.strength ≤ 1) = decide (φ.strength < 2) :=
    decide_eq_decide.mpr Nat.lt_succ_iff.symm
  rw [symbols, hprecedence, hleft]
  rfl

theorem chars_negation {h : φ.Lettered} {d : Derivation .expression} (hd : d.chars = φ.symbols) :
    (φ.negation h d).chars = (neg φ).symbols := by
  cases φ with
  | var x p => rfl
  | literal b => rfl
  | neg φ => rw [symbols, ← hd]; rfl
  | binary op φ ψ p => rw [symbols, ← hd]; rfl

/-- The text of the derivation is the plain text, in parentheses if the category calls for them. -/
theorem chars_derivation (φ : Formula) (h : φ.Lettered) (k : Category) :
    (φ.derivation h k).chars = enclose (φ.strength < k.strength) φ.symbols := by
  induction φ generalizing k with
  | var x p => exact Derivation.chars_within _
  | literal b => exact Derivation.chars_within _
  | neg φ ih =>
    have hinner := ih h.operand .expression
    rw [enclose_expression] at hinner
    rw [derivation, Derivation.chars_within, chars_negation hinner]
    rfl
  | binary op φ ψ p ihφ ihψ =>
    rw [derivation]
    split
    · rename_i hop
      obtain rfl := Connective.eq_and_of_isTight hop
      rw [Derivation.chars_within, Derivation.chars, ihφ, ihψ, ← symbols_tight]
      rfl
    · rename_i hop
      rw [Derivation.chars_within, Derivation.chars, ihφ, ihψ, ← symbols_loose hop, strength,
        Connective.precedence, hop]
      rfl

/-! ### The formula -/

theorem foldLiterals_neg (h : ∀ b, φ ≠ literal b) : (neg φ).foldLiterals = neg φ.foldLiterals := by
  cases φ with
  | literal b => exact absurd rfl (h b)
  | var x p | neg φ | binary op φ ψ p => rfl

theorem tree_negation {h : φ.Lettered} {d : Derivation .expression}
    (hd : d.tree = φ.foldLiterals.unplaced) :
    (φ.negation h d).tree = (neg φ).foldLiterals.unplaced := by
  cases φ with
  | var x p => rfl
  | literal b => cases b <;> rfl
  | neg φ => exact congrArg neg hd
  | binary op φ ψ p => exact congrArg neg hd

/-- The derivation describes the formula with the negations of literals carried out. -/
theorem tree_derivation (φ : Formula) (h : φ.Lettered) (k : Category) :
    (φ.derivation h k).tree = φ.foldLiterals.unplaced := by
  induction φ generalizing k with
  | var x p => rw [derivation, Derivation.tree_within]; rfl
  | literal b => rw [derivation, Derivation.tree_within, Derivation.tree, Bool.bne_false]; rfl
  | neg φ ih => rw [derivation, Derivation.tree_within, tree_negation (ih h.operand .expression)]
  | binary op φ ψ p ihφ ihψ =>
    rw [derivation]
    split
    · rename_i hop
      obtain rfl := Connective.eq_and_of_isTight hop
      rw [Derivation.tree_within, Derivation.tree, ihφ, ihψ]
      rfl
    · rw [Derivation.tree_within, Derivation.tree, ihφ, ihψ]
      rfl

/-! ### The levels -/

theorem levels_negation_le {h : φ.Lettered} {d : Derivation .expression} :
    (φ.negation h d).levels ≤ d.levels + 1 := by
  cases φ with
  | var x p | literal b => exact Nat.zero_le _
  | neg φ | binary op φ ψ p => exact Nat.le_refl _

theorem derivation_tight (h : (binary .and φ ψ p).Lettered) :
    (binary .and φ ψ p).derivation h .conjunction =
      .tight (φ.derivation h.left .factor) (ψ.derivation h.right .conjunction) :=
  rfl

theorem derivation_loose (hop : op.isTight = false) (h : (binary op φ ψ p).Lettered) :
    (binary op φ ψ p).derivation h .expression =
      .loose (φ.derivation h.left .conjunction) op hop (ψ.derivation h.right .expression) := by
  cases op with
  | and => cases hop
  | or | xor | imply => rfl

/-- The derivation is one derivation of the grammar, written for different places. -/
theorem exists_derivation_eq_within (φ : Formula) (h : φ.Lettered) :
    ∃ (j : Category) (d : Derivation j), j.strength = φ.strength ∧
      ∀ k, φ.derivation h k = d.within k := by
  cases φ with
  | var x p => exact ⟨_, _, rfl, fun k => rfl⟩
  | literal b => exact ⟨_, _, rfl, fun k => rfl⟩
  | neg φ => exact ⟨_, _, rfl, fun k => rfl⟩
  | binary op φ ψ p =>
    cases op with
    | and => exact ⟨_, _, rfl, fun k => rfl⟩
    | or | xor | imply => exact ⟨_, _, rfl, fun k => rfl⟩

theorem levels_derivation_le (φ : Formula) (h : φ.Lettered) (k : Category) :
    (φ.derivation h k).levels ≤ (φ.derivation h k.inner).levels + 1 := by
  obtain ⟨j, d, -, hd⟩ := exists_derivation_eq_within φ h
  rw [hd, hd]
  exact d.levels_within_le k

/-- Where a formula needs no parentheses even in the inner category, the level is used up. -/
theorem levels_derivation_eq (h : φ.Lettered) (hk : k ≠ .factor)
    (hφ : k.inner.strength ≤ φ.strength) :
    (φ.derivation h k).levels = (φ.derivation h k.inner).levels + 1 := by
  obtain ⟨j, d, hj, hd⟩ := exists_derivation_eq_within φ h
  rw [hd, hd]
  rw [← hj] at hφ
  cases k with
  | expression =>
    cases j with
    | expression => exact absurd hφ (by decide)
    | conjunction | factor => rfl
  | conjunction =>
    cases j with
    | expression | conjunction => exact absurd hφ (by decide)
    | factor => rfl
  | factor => exact absurd rfl hk

end Formula

/-! ### The least nesting -/

namespace Derivation

variable {k : Category}

/-- The variables of a derivation are letters. -/
theorem lettered_placed (d : Derivation k) (p : Nat) : (d.placed p).Lettered := by
  have hneg (negated : Bool) {φ : Formula} (hφ : φ.Lettered) :
      (Formula.negateIf negated φ).Lettered := by
    cases negated <;> exact hφ
  induction d generalizing p with
  | ofConjunction d ih => exact ih p
  | loose d op hop e ihd ihe => exact ⟨ihd _, ihe _⟩
  | ofFactor d ih => exact ih p
  | tight d e ihd ihe => exact ⟨ihd _, ihe _⟩
  | letter negated x hx => exact hneg negated hx
  | digit negated b => trivial
  | group negated d ih => exact hneg negated (ih _)

/-- No derivation of a formula nests less deeply than that of its plain text. -/
theorem levels_derivation_placed_le (d : Derivation k) (p : Nat) (h : (d.placed p).Lettered) :
    ((d.placed p).derivation h k).levels ≤ d.levels := by
  induction d generalizing p with
  | ofConjunction d ih =>
    exact Nat.le_trans (Formula.levels_derivation_le _ h .expression) (Nat.succ_le_succ (ih p h))
  | loose d op hop e ihd ihe =>
    have hleft := ihd p h.left
    have hright := ihe _ h.right
    simp only [placed, Formula.derivation_loose hop, levels]
    omega
  | ofFactor d ih =>
    exact Nat.le_trans (Formula.levels_derivation_le _ h .conjunction) (Nat.succ_le_succ (ih p h))
  | tight d e ihd ihe =>
    have hleft := ihd p h.left
    have hright := ihe _ h.right
    simp only [placed, Formula.derivation_tight, levels]
    omega
  | letter negated x hx => cases negated <;> exact Nat.le_refl _
  | digit negated b => exact Nat.le_refl _
  | group negated d ih =>
    cases negated with
    -- Parentheses without a sign leave no trace in the formula.
    | false =>
      exact Nat.le_trans (Formula.levels_derivation_le _ h .factor) (Nat.succ_le_succ (ih _ h))
    | true => exact Nat.le_trans Formula.levels_negation_le (Nat.succ_le_succ (ih _ h.operand))

end Derivation

/-! ### Reading the plain text -/

namespace Formula

variable {φ : Formula} {s : String}

theorem chars_derivation_expression (h : φ.Lettered) :
    (φ.derivation h .expression).chars = φ.text.toList := by
  rw [chars_derivation, enclose_expression, toList_text]

/-- The plain text is read if its derivation is within the limit, and as the formula of this
derivation. -/
theorem parse_text_of_levels_le (h : φ.Lettered)
    (hlevels : (φ.derivation h .expression).levels ≤ maxNesting) :
    ∃ ψ, parse φ.text = .ok ψ ∧ ψ.unplaced = φ.foldLiterals.unplaced := by
  rw [← tree_derivation φ h .expression]
  exact exists_parse_eq_ok _ (chars_derivation_expression h) hlevels

/-- Beyond the limit it is refused as nesting too deeply. -/
theorem parse_text_of_lt_levels (h : φ.Lettered)
    (hlevels : maxNesting < (φ.derivation h .expression).levels) :
    ∃ q, parse φ.text = .error ⟨⟨q, .tooDeep⟩, φ.text⟩ :=
  exists_parse_eq_tooDeep _ (chars_derivation_expression h) hlevels

/-- What has been read from a text can be read from its plain text. -/
theorem parse_text_of_parse (hparse : parse s = .ok φ) :
    ∃ ψ, parse φ.text = .ok ψ ∧ ψ.unplaced = φ.foldLiterals.unplaced := by
  obtain ⟨d, -, hlevels, rfl⟩ := parse_eq_ok_iff.mp hparse
  have h := d.lettered_placed 0
  exact parse_text_of_levels_le h (Nat.le_trans (d.levels_derivation_placed_le 0 h) hlevels)

/-- No negation stands directly on a literal. -/
def NegatesNoLiteral : Formula → Prop
  | var _ _ | literal _ => True
  | neg φ => (∀ b, φ ≠ literal b) ∧ φ.NegatesNoLiteral
  | binary _ φ ψ _ => φ.NegatesNoLiteral ∧ ψ.NegatesNoLiteral

/-- Carrying out the negations of literals changes nothing exactly when there are none. -/
theorem unplaced_foldLiterals_eq_iff :
    φ.foldLiterals.unplaced = φ.unplaced ↔ φ.NegatesNoLiteral := by
  induction φ with
  | var x p | literal b => exact iff_of_true rfl trivial
  | neg φ ih =>
    by_cases hφ : ∃ b, φ = literal b
    · obtain ⟨b, rfl⟩ := hφ
      exact iff_of_false (fun h => by cases h) fun h => h.1 b rfl
    · have hne : ∀ b, φ ≠ literal b := not_exists.mp hφ
      rw [foldLiterals_neg hne, unplaced, unplaced, neg.injEq, ih]
      exact (and_iff_right hne).symm
  | binary op φ ψ p ihφ ihψ =>
    simp only [foldLiterals, unplaced, binary.injEq, ihφ, ihψ, true_and, and_true, NegatesNoLiteral]

end Formula

/-- The plain text of a formula over letters is read as the formula with the negations of literals
carried out, or it nests too deeply; it does not if the formula has been read from a text. -/
theorem parse_text :
    (∀ φ : Formula, (∀ x ∈ φ.names, x.isAlpha = true) →
      (∃ ψ, Formula.parse φ.text = .ok ψ ∧ ψ.unplaced = φ.foldLiterals.unplaced) ∨
        ∃ q, Formula.parse φ.text = .error ⟨⟨q, .tooDeep⟩, φ.text⟩) ∧
    ∀ (s : String) (φ : Formula), Formula.parse s = .ok φ →
      ∃ ψ, Formula.parse φ.text = .ok ψ ∧ ψ.unplaced = φ.foldLiterals.unplaced := by
  refine ⟨fun φ h => ?_, fun s φ => Formula.parse_text_of_parse⟩
  rw [← Formula.lettered_iff] at h
  rcases Nat.lt_or_ge maxNesting (φ.derivation h .expression).levels with hlevels | hlevels
  · exact Or.inr (Formula.parse_text_of_lt_levels h hlevels)
  · exact Or.inl (Formula.parse_text_of_levels_le h hlevels)

/-- Under two negations of a literal, the inner one is carried out. -/
theorem parse_text_double_negation :
    ∃ ψ, Formula.parse (Formula.neg (.neg (.literal false))).text = .ok ψ ∧
      ψ.unplaced = .neg (.literal true) := by
  rcases parse_text.1 (.neg (.neg (.literal false))) (by simp) with hok | ⟨q, hdeep⟩
  · exact hok
  · cases hdeep

/-- A formula that has been read from a text is read again from its plain text exactly when no
negation stands on a literal. -/
theorem parse_text_of_parse_iff {s : String} {φ : Formula} (h : Formula.parse s = .ok φ) :
    (∃ ψ, Formula.parse φ.text = .ok ψ ∧ ψ.unplaced = φ.unplaced) ↔ φ.NegatesNoLiteral := by
  obtain ⟨ψ, hψ, htree⟩ := Formula.parse_text_of_parse h
  rw [← Formula.unplaced_foldLiterals_eq_iff, ← htree]
  refine ⟨fun ⟨χ, hχ, heq⟩ => ?_, fun heq => ⟨ψ, hψ, heq⟩⟩
  rw [hψ] at hχ
  cases hχ
  exact heq

/-- A negated group of several operands keeps its parentheses, and its formula. -/
theorem parse_text_of_parse_iff_group :
    ∃ φ ψ, Formula.parse "!((a|1))" = .ok φ ∧ Formula.parse φ.text = .ok ψ ∧
      ψ.unplaced = φ.unplaced := by
  have hrun : Formula.parse "!((a|1))" =
      .ok (.neg (.binary .or (.var 'a' 3) (.literal true) 4)) := by rfl
  obtain ⟨ψ, hψ, heq⟩ := (parse_text_of_parse_iff hrun).mpr (by simp [Formula.NegatesNoLiteral])
  exact ⟨_, ψ, hrun, hψ, heq⟩

/-- A negated group of one literal loses its parentheses, and is read as the opposite literal. -/
theorem not_parse_text_negated_literal :
    ∃ φ, Formula.parse "!(0)" = .ok φ ∧
      ¬ ∃ ψ, Formula.parse φ.text = .ok ψ ∧ ψ.unplaced = φ.unplaced := by
  have hrun : Formula.parse "!(0)" = .ok (.neg (.literal false)) := by rfl
  have hagain : Formula.parse (Formula.neg (.literal false)).text = .ok (.literal true) := by rfl
  refine ⟨_, hrun, ?_⟩
  rintro ⟨ψ, hψ, heq⟩
  rw [hagain] at hψ
  cases hψ
  cases heq

end PrimeForm
