import PrimeForm.Formula.Parser

/-!
# Derivations

The grammar of formulas as a family of derivation trees, without a reader:

    expression  ::=  conjunction  |  conjunction ('|' or '^' or '>') expression
    conjunction ::=  factor  |  factor '&' conjunction
    factor      ::=  letter  |  digit  |  '(' expression ')', each with or without a '!' in front

A derivation spells a text, nests to a number of levels, and describes a formula. A text followed
by something that cannot continue it has at most one derivation.

## Main definitions

* `Category`, `Derivation` — the grammar
* `Derivation.chars`, `Derivation.levels` — the text of a derivation, and how deeply it nests
* `Derivation.tree`, `Derivation.placed` — its formula, without and with positions
* `Category.Stops` — a text that cannot continue what stands before it

## Main results

* `Derivation.eq_of_append_eq`, `Derivation.eq_of_chars_eq` — the grammar is unambiguous
* `Derivation.unplaced_placed` — the positions are an addition to the formula
-/

namespace PrimeForm

/-- What the grammar derives. -/
inductive Category where
  | expression
  | conjunction
  | factor
deriving DecidableEq, Repr

/-- A derivation of a text of some category. -/
inductive Derivation : Category → Type where
  /-- A conjunction alone. -/
  | ofConjunction (left : Derivation .conjunction) : Derivation .expression
  /-- A conjunction before a connective of the loose level. -/
  | loose (left : Derivation .conjunction) (op : Connective) (hop : op.isTight = false)
    (right : Derivation .expression) : Derivation .expression
  /-- A factor alone. -/
  | ofFactor (left : Derivation .factor) : Derivation .conjunction
  /-- A factor before the sign of conjunction. -/
  | tight (left : Derivation .factor) (right : Derivation .conjunction) : Derivation .conjunction
  | letter (negated : Bool) (name : Char) (hname : name.isAlpha = true) : Derivation .factor
  | digit (negated : Bool) (value : Bool) : Derivation .factor
  | group (negated : Bool) (inner : Derivation .expression) : Derivation .factor

/-- A text with a negation sign in front, if `negated`. -/
def signed (negated : Bool) (cs : List Char) : List Char := if negated then '!' :: cs else cs

namespace Derivation

variable {k : Category}

/-- The text that a derivation spells. -/
def chars : {k : Category} → Derivation k → List Char
  | _, ofConjunction d => d.chars
  | _, loose d op _ e => d.chars ++ op.symbol :: e.chars
  | _, ofFactor d => d.chars
  | _, tight d e => d.chars ++ Connective.and.symbol :: e.chars
  | _, letter negated x _ => signed negated [x]
  | _, digit negated b => signed negated [Digit.ofBool b]
  | _, group negated d => signed negated ('(' :: (d.chars ++ [')']))

/-- The levels of a derivation: an expression, a conjunction and a group each add one to what they
contain. -/
def levels : {k : Category} → Derivation k → Nat
  | _, ofConjunction d => d.levels + 1
  | _, loose d _ _ e => max d.levels e.levels + 1
  | _, ofFactor d => d.levels + 1
  | _, tight d e => max d.levels e.levels + 1
  | _, letter _ _ _ => 0
  | _, digit _ _ => 0
  | _, group _ d => d.levels + 1

/-- The formula of a derivation, without positions. Chains nest to the right, and a negated digit
is the opposite digit. -/
def tree : {k : Category} → Derivation k → Formula
  | _, ofConjunction d => d.tree
  | _, loose d op _ e => .join op d.tree e.tree
  | _, ofFactor d => d.tree
  | _, tight d e => .join .and d.tree e.tree
  | _, letter negated x _ => .negateIf negated (.ofName x)
  | _, digit negated b => .literal (b != negated)
  | _, group negated d => .negateIf negated d.tree

/-- The formula of a derivation that starts at a position of a text. -/
def placed : {k : Category} → Derivation k → (position : Nat) → Formula
  | _, ofConjunction d, p => d.placed p
  | _, loose d op _ e, p =>
    .binary op (d.placed p) (e.placed (p + d.chars.length + 1)) (p + d.chars.length)
  | _, ofFactor d, p => d.placed p
  | _, tight d e, p =>
    .binary .and (d.placed p) (e.placed (p + d.chars.length + 1)) (p + d.chars.length)
  | _, letter negated x _, p => .negateIf negated (.var x (p + negated.toNat))
  | _, digit negated b, _ => .literal (b != negated)
  | _, group negated d, p => .negateIf negated (d.placed (p + negated.toNat + 1))

/-- The positions are an addition to the formula. -/
theorem unplaced_placed (d : Derivation k) (p : Nat) : (d.placed p).unplaced = d.tree := by
  have hneg (negated : Bool) (φ : Formula) :
      (Formula.negateIf negated φ).unplaced = .negateIf negated φ.unplaced := by
    cases negated <;> rfl
  induction d generalizing p with
  | ofConjunction d ih => exact ih p
  | loose d op hop e ihd ihe => rw [placed, Formula.unplaced, ihd, ihe]; rfl
  | ofFactor d ih => exact ih p
  | tight d e ihd ihe => rw [placed, Formula.unplaced, ihd, ihe]; rfl
  | letter negated x hx => rw [placed, hneg]; rfl
  | digit negated b => rfl
  | group negated d ih => rw [placed, hneg, ih]; rfl

end Derivation

/-! ### The end of a text -/

namespace Category

/-- May a text of the category be continued by a connective? -/
def takes : Category → Connective → Bool
  | expression, _ => true
  | conjunction, op => op.isTight
  | factor, _ => false

/-- The rest of a text does not start with a connective that continues a text of the category. -/
def Stops (k : Category) (rest : List Char) : Prop :=
  ∀ op rest', rest = op.symbol :: rest' → k.takes op = false

variable {rest : List Char} {op : Connective}

theorem stops_nil (k : Category) : k.Stops [] := by
  intro op rest' h
  cases h

theorem stops_factor (rest : List Char) : factor.Stops rest := fun _ _ _ => rfl

theorem stops_cons {k : Category} {c : Char} (h : ∀ op : Connective, c ≠ op.symbol) :
    k.Stops (c :: rest) := by
  intro op rest' heq
  exact absurd (List.cons.inj heq).1 (h op)

/-- A closing parenthesis continues nothing. -/
theorem stops_closing (k : Category) (rest : List Char) : k.Stops (')' :: rest) :=
  stops_cons fun op => by cases op <;> decide

theorem stops_symbol_cons {k : Category} (h : k.takes op = false) :
    k.Stops (op.symbol :: rest) := by
  intro op' rest' heq
  rw [← Connective.symbol_injective (List.cons.inj heq).1, h]

theorem Stops.conjunction (h : expression.Stops rest) : conjunction.Stops rest := by
  intro op rest' heq
  cases h op rest' heq

theorem not_stops_symbol_cons {k : Category} (h : k.takes op = true) :
    ¬ k.Stops (op.symbol :: rest) := by
  intro hstops
  rw [hstops op rest rfl] at h
  cases h

end Category

/-! ### Unambiguity -/

theorem signed_append (negated : Bool) (cs rest : List Char) :
    signed negated cs ++ rest = signed negated (cs ++ rest) := by
  cases negated <;> rfl

theorem length_signed (negated : Bool) (cs : List Char) :
    (signed negated cs).length = negated.toNat + cs.length := by
  cases negated
  · exact (Nat.zero_add _).symm
  · exact Nat.add_comm _ 1

/-- The position behind two texts with a connective between them. -/
theorem add_length_append_cons (p : Nat) (cs : List Char) (c : Char) (cs' : List Char) :
    p + (cs ++ c :: cs').length = p + cs.length + 1 + cs'.length := by
  rw [List.length_append, List.length_cons]
  omega

/-- A sign can be told apart from what starts with another character. -/
theorem signed_inj {n n' : Bool} {c c' : Char} {cs cs' : List Char} (hc : c ≠ '!') (hc' : c' ≠ '!')
    (h : signed n (c :: cs) = signed n' (c' :: cs')) : n = n' ∧ c = c' ∧ cs = cs' := by
  cases n <;> cases n'
  · exact ⟨rfl, List.cons.inj h⟩
  · exact absurd (List.cons.inj h).1 hc
  · exact absurd (List.cons.inj h).1.symm hc'
  · exact ⟨rfl, List.cons.inj (List.cons.inj h).2⟩

theorem Digit.ofBool_injective {b b' : Bool} (h : Digit.ofBool b = Digit.ofBool b') : b = b' := by
  cases b <;> cases b' <;> simp_all [Digit.ofBool]

theorem Digit.ofBool_ne_sign (b : Bool) : Digit.ofBool b ≠ '!' := by cases b <;> decide

/-- Letters are no signs and no digits. -/
theorem ne_of_isAlpha {x c : Char} (hx : x.isAlpha = true) (hc : c.isAlpha = false) : x ≠ c := by
  intro heq
  rw [heq, hc] at hx
  cases hx

theorem ne_sign_of_isAlpha {x : Char} (hx : x.isAlpha = true) : x ≠ '!' :=
  ne_of_isAlpha hx (by decide)

theorem isAlpha_ofBool (b : Bool) : (Digit.ofBool b).isAlpha = false := by cases b <;> decide

namespace Derivation

/-! ### Texts in front of others -/

section Append

variable {negated b : Bool} {x : Char} {hx : x.isAlpha = true} {rest : List Char}

theorem chars_letter_append : (letter negated x hx).chars ++ rest = signed negated (x :: rest) :=
  signed_append negated [x] rest

theorem chars_digit_append :
    (digit negated b).chars ++ rest = signed negated (Digit.ofBool b :: rest) :=
  signed_append negated [Digit.ofBool b] rest

theorem chars_group_append {d : Derivation .expression} :
    (group negated d).chars ++ rest = signed negated ('(' :: (d.chars ++ ')' :: rest)) := by
  rw [chars, signed_append, List.cons_append, List.append_assoc, List.singleton_append]

theorem chars_loose_append {d : Derivation .conjunction} {op : Connective}
    {hop : op.isTight = false} {e : Derivation .expression} :
    (loose d op hop e).chars ++ rest = d.chars ++ op.symbol :: (e.chars ++ rest) := by
  rw [chars, List.append_assoc, List.cons_append]

theorem chars_tight_append {d : Derivation .factor} {e : Derivation .conjunction} :
    (tight d e).chars ++ rest = d.chars ++ Connective.and.symbol :: (e.chars ++ rest) := by
  rw [chars, List.append_assoc, List.cons_append]

end Append

/-- A letter can be told apart from all other factors. -/
theorem eq_of_append_eq_letter {negated : Bool} {x : Char} {hx : x.isAlpha = true}
    (d : Derivation .factor) {rest rest' : List Char}
    (h : (letter negated x hx).chars ++ rest = d.chars ++ rest') :
    letter negated x hx = d ∧ rest = rest' := by
  have hsign := ne_sign_of_isAlpha hx
  rw [chars_letter_append] at h
  cases d with
  | letter negated' y hy =>
    rw [chars_letter_append] at h
    obtain ⟨rfl, rfl, hrests⟩ := signed_inj hsign (ne_sign_of_isAlpha hy) h
    exact ⟨rfl, hrests⟩
  | digit negated' b =>
    rw [chars_digit_append] at h
    obtain ⟨-, hdigit, -⟩ := signed_inj hsign (Digit.ofBool_ne_sign b) h
    exact absurd hdigit (ne_of_isAlpha hx (isAlpha_ofBool b))
  | group negated' d =>
    rw [chars_group_append] at h
    obtain ⟨-, hopening, -⟩ := signed_inj hsign (by decide) h
    exact absurd hopening (ne_of_isAlpha hx (by decide))

/-- A digit can be told apart from all other factors. -/
theorem eq_of_append_eq_digit {negated b : Bool} (d : Derivation .factor) {rest rest' : List Char}
    (h : (digit negated b).chars ++ rest = d.chars ++ rest') :
    digit negated b = d ∧ rest = rest' := by
  have hsign := Digit.ofBool_ne_sign b
  cases d with
  | letter negated' y hy => cases (eq_of_append_eq_letter _ h.symm).1
  | digit negated' b' =>
    rw [chars_digit_append, chars_digit_append] at h
    obtain ⟨rfl, hdigit, hrests⟩ := signed_inj hsign (Digit.ofBool_ne_sign b') h
    obtain rfl := Digit.ofBool_injective hdigit
    exact ⟨rfl, hrests⟩
  | group negated' d =>
    rw [chars_digit_append, chars_group_append] at h
    obtain ⟨-, hopening, -⟩ := signed_inj hsign (by decide) h
    cases b <;> cases hopening

/-- Two derivations are equal if their texts can be continued to the same text without continuing
the derivations. -/
theorem eq_of_append_eq {k : Category} (d d' : Derivation k) {rest rest' : List Char}
    (h : d.chars ++ rest = d'.chars ++ rest') (hrest : k.Stops rest) (hrest' : k.Stops rest') :
    d = d' ∧ rest = rest' := by
  -- What stands before a connective of the loose level does not go on behind it.
  have hloose {op : Connective} (hop : op.isTight = false) (cs : List Char) :
      Category.conjunction.Stops (op.symbol :: cs) := Category.stops_symbol_cons hop
  induction d generalizing rest rest' with
  | ofConjunction d ih =>
    cases d' with
    | ofConjunction d' =>
      obtain ⟨rfl, hrests⟩ := ih d' h hrest.conjunction hrest'.conjunction
      exact ⟨rfl, hrests⟩
    | loose d' op hop e' =>
      -- The shorter text would be followed by a connective.
      rw [chars_loose_append] at h
      obtain ⟨-, rfl⟩ := ih d' h hrest.conjunction (hloose hop _)
      exact absurd hrest (Category.not_stops_symbol_cons rfl)
  | loose d op hop e ihd ihe =>
    rw [chars_loose_append] at h
    cases d' with
    | ofConjunction d' =>
      obtain ⟨-, rfl⟩ := ihd d' h (hloose hop _) hrest'.conjunction
      exact absurd hrest' (Category.not_stops_symbol_cons rfl)
    | loose d' op' hop' e' =>
      rw [chars_loose_append] at h
      obtain ⟨rfl, hafter⟩ := ihd d' h (hloose hop _) (hloose hop' _)
      obtain ⟨hsymbol, htail⟩ := List.cons.inj hafter
      obtain rfl := Connective.symbol_injective hsymbol
      obtain ⟨rfl, hrests⟩ := ihe e' htail hrest hrest'
      exact ⟨rfl, hrests⟩
  | ofFactor d ih =>
    cases d' with
    | ofFactor d' =>
      obtain ⟨rfl, hrests⟩ := ih d' h (Category.stops_factor _) (Category.stops_factor _)
      exact ⟨rfl, hrests⟩
    | tight d' e' =>
      rw [chars_tight_append] at h
      obtain ⟨-, rfl⟩ := ih d' h (Category.stops_factor _) (Category.stops_factor _)
      exact absurd hrest (Category.not_stops_symbol_cons rfl)
  | tight d e ihd ihe =>
    rw [chars_tight_append] at h
    cases d' with
    | ofFactor d' =>
      obtain ⟨-, rfl⟩ := ihd d' h (Category.stops_factor _) (Category.stops_factor _)
      exact absurd hrest' (Category.not_stops_symbol_cons rfl)
    | tight d' e' =>
      rw [chars_tight_append] at h
      obtain ⟨rfl, hafter⟩ := ihd d' h (Category.stops_factor _) (Category.stops_factor _)
      obtain ⟨rfl, hrests⟩ := ihe e' (List.cons.inj hafter).2 hrest hrest'
      exact ⟨rfl, hrests⟩
  | letter negated x hx => exact eq_of_append_eq_letter d' h
  | digit negated b => exact eq_of_append_eq_digit d' h
  | group negated d ih =>
    cases d' with
    | letter negated' y hy => cases (eq_of_append_eq_letter _ h.symm).1
    | digit negated' b => cases (eq_of_append_eq_digit _ h.symm).1
    | group negated' d' =>
      rw [chars_group_append, chars_group_append] at h
      obtain ⟨rfl, -, hinner⟩ := signed_inj (by decide) (by decide) h
      -- The closing parenthesis continues neither of the two expressions.
      obtain ⟨rfl, hafter⟩ :=
        ih d' hinner (Category.stops_closing _ _) (Category.stops_closing _ _)
      exact ⟨rfl, (List.cons.inj hafter).2⟩

/-- A text has at most one derivation of a category. -/
theorem eq_of_chars_eq {k : Category} {d d' : Derivation k} (h : d.chars = d'.chars) : d = d' :=
  (d.eq_of_append_eq d' (congrArg (· ++ []) h) (Category.stops_nil k) (Category.stops_nil k)).1

end Derivation

end PrimeForm
