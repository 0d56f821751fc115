import PrimeForm.Proofs.Grammar.Reading

/-!
# Refusals

Where the reader gives up on a text, and why. A refusal divides the text into a front that has been
read and a rest. The front is not at fault: some text that starts with it is a formula. At fault is
the first character of the rest, so nothing that comes after it makes a difference; the end of a
text is at fault in its place when the rest is empty. A front that nests too deeply is at fault by
itself.

## Main definitions

* `Refusal`, `Refused` — the ways to give up on a text of a category, following the grammar
* `TextRefusal` — the ways to give up on a whole text
* `SyntaxError.Cause.found?` — the character that a cause reports
* `Viable` — some text that starts like this is a formula

## Main results

* `readAt_eq_error_iff`, `Formula.parse_eq_error_iff` — the errors of the reader are the refusals
* `Refusal.exists_derivation` — the front of a refusal can be completed
* `Refusal.congr` — a refusal depends on the first character of the rest only
* `parse_error_position` — errors point at the first character that no formula continues with
-/

namespace PrimeForm

/-- The character that a cause reports. -/
def SyntaxError.Cause.found? : SyntaxError.Cause → Option Char
  | .operandExpected found | .closingExpected found => found
  | .trailing c => some c
  | .tooDeep => none

/-- The text does not start with a letter, a digit or an opening parenthesis. -/
def LacksOperand (cs : List Char) : Prop :=
  ∀ c, cs.head? = some c → Digit.toBool? c = none ∧ c.isAlpha = false ∧ c ≠ '('

/-- The reader, with at most `levels` rules open, gives up on a text of a category when it has read
`front` and sees `rest`. -/
inductive Refusal :
    (levels : Nat) → Category → (front rest : List Char) → SyntaxError.Cause → Prop where
  /-- There is no level left to open the category. -/
  | unopened {rest : List Char} (k : Category) (hk : k ≠ .factor) : Refusal 0 k [] rest .tooDeep
  /-- The first conjunction of an expression is refused. -/
  | inConjunction {levels : Nat} {front rest : List Char} {cause : SyntaxError.Cause}
    (h : Refusal levels .conjunction front rest cause) :
    Refusal (levels + 1) .expression front rest cause
  /-- The expression behind a connective of the loose level is refused. -/
  | inExpression {levels : Nat} {front rest : List Char} {cause : SyntaxError.Cause}
    (d : Derivation .conjunction) (hd : d.levels ≤ levels) (op : Connective)
    (hop : op.isTight = false) (h : Refusal levels .expression front rest cause) :
    Refusal (levels + 1) .expression (d.chars ++ op.symbol :: front) rest cause
  /-- The first factor of a conjunction is refused. -/
  | inFactor {levels : Nat} {front rest : List Char} {cause : SyntaxError.Cause}
    (h : Refusal levels .factor front rest cause) :
    Refusal (levels + 1) .conjunction front rest cause
  /-- The conjunction behind the sign of conjunction is refused. -/
  | inConjunct {levels : Nat} {front rest : List Char} {cause : SyntaxError.Cause}
    (d : Derivation .factor) (hd : d.levels ≤ levels)
    (h : Refusal levels .conjunction front rest cause) :
    Refusal (levels + 1) .conjunction (d.chars ++ Connective.and.symbol :: front) rest cause
  /-- Behind an optional sign, no operand follows. -/
  | operand {levels : Nat} {rest : List Char} (negated : Bool)
    (hsign : negated = true ∨ rest.head? ≠ some '!') (h : LacksOperand rest) :
    Refusal levels .factor (signed negated []) rest (.operandExpected rest.head?)
  /-- There is no level left to open a group. -/
  | opening {rest : List Char} (negated : Bool) :
    Refusal 0 .factor (signed negated []) ('(' :: rest) .tooDeep
  /-- The expression in a group is refused. -/
  | inGroup {levels : Nat} {front rest : List Char} {cause : SyntaxError.Cause} (negated : Bool)
    (h : Refusal levels .expression front rest cause) :
    Refusal (levels + 1) .factor (signed negated ('(' :: front)) rest cause
  /-- A group is not closed where the expression in it ends. -/
  | closing {levels : Nat} {rest : List Char} (negated : Bool) (d : Derivation .expression)
    (hd : d.levels ≤ levels) (hrest : Category.expression.Stops rest)
    (h : rest.head? ≠ some ')') :
    Refusal (levels + 1) .factor (signed negated ('(' :: d.chars)) rest
      (.closingExpected rest.head?)

/-! ### The errors of the rules -/

section Steps

variable {group expression : Unread → Reading} {negated : Bool} {r : Unread} {e : SyntaxError}

/-- An operand fails if none starts here, or if the group that starts here fails. -/
theorem readOperand_eq_error_iff :
    readOperand group negated r = .error e ↔
      (LacksOperand r.chars ∧ e = ⟨r.position, .operandExpected r.chars.head?⟩) ∨
        ∃ cs, r.chars = '(' :: cs ∧ group r = .error e := by
  obtain ⟨p, cs⟩ := r
  cases cs with
  | nil => simp [readOperand, Unread.fail, LacksOperand, @eq_comm _ e]
  | cons c cs =>
    by_cases hopening : c = '('
    · subst hopening
      rw [readOperand_group_eq_error_iff]
      simp [LacksOperand]
    · cases hdigit : Digit.toBool? c with
      | some b => simp [readOperand, LacksOperand, hdigit, hopening]
      | none =>
        cases hletter : c.isAlpha <;>
          simp [readOperand, Unread.fail, LacksOperand, hdigit, hletter, hopening, @eq_comm _ e]

/-- A group fails where the expression in it does, or where that ends without being closed. -/
theorem readGroup_eq_error_iff :
    readGroup expression r = .error e ↔
      expression r.next = .error e ∨
        ∃ φ s, expression r.next = .ok (φ, s) ∧ s.chars.head? ≠ some ')' ∧
          e = ⟨s.position, .closingExpected s.chars.head?⟩ := by
  rw [readGroup, bind_eq_error_iff, Prod.exists]
  refine or_congr_right (exists_congr fun φ => exists_congr fun s => and_congr_right fun _ => ?_)
  dsimp only
  split
  · rename_i cs hcs
    refine iff_of_false (fun h => by cases h) fun h => h.1 ?_
    rw [hcs, List.head?_cons]
  · rename_i hclose
    have hhead : s.chars.head? ≠ some ')' := fun hhead => by
      obtain ⟨cs, hcs⟩ := List.head?_eq_some_iff.mp hhead
      exact hclose cs hcs
    simp [hhead, Unread.fail, @eq_comm _ e]

end Steps

/-! ### Errors are refusals -/

/-- The reader gives up on what is left of a text, for the cause and at the position of an error. -/
def Refused (levels : Nat) (k : Category) (r : Unread) (e : SyntaxError) : Prop :=
  ∃ front rest, r.chars = front ++ rest ∧ e.position = r.position + front.length ∧
    Refusal levels k front rest e.cause

section Errors

variable {levels : Nat} {r : Unread} {e : SyntaxError}

/-- A factor that fails is refused, if groups that fail are. -/
theorem refused_of_readFactor
    (hgroup : ∀ p cs e, readRule levels .group ⟨p, '(' :: cs⟩ = .error e →
      ∃ front rest, '(' :: cs = front ++ rest ∧ e.position = p + front.length ∧
        ∀ negated, Refusal levels .factor (signed negated front) rest e.cause)
    (h : readAt levels .factor r = .error e) : Refused levels .factor r e := by
  obtain ⟨p, cs⟩ := r
  obtain ⟨negated, cs, rfl, hsign⟩ := exists_eq_signed cs
  rw [readAt, readFactor_signed hsign, readOperand_eq_error_iff] at h
  rcases h with ⟨hlacks, rfl⟩ | ⟨cs', rfl, hfail⟩
  · refine ⟨signed negated [], cs, ?_, ?_, .operand negated hsign hlacks⟩
    · rw [signed_append, List.nil_append]
    · rw [length_signed]
      rfl
  · obtain ⟨front, rest, hcs, hposition, hrefusal⟩ := hgroup _ _ _ hfail
    refine ⟨signed negated front, rest, ?_, ?_, hrefusal negated⟩
    · rw [signed_append, ← hcs]
    · rw [length_signed, hposition]
      exact Nat.add_assoc _ _ _

/-- A chain that fails is refused in its first operand or behind it, if its parts are refused. -/
theorem refused_of_readChain {j k l : Category} {tight : Bool}
    (ih : ∀ {k : Category} {r : Unread} {e : SyntaxError},
      readAt levels k r = .error e → Refused levels k r e)
    (hfirst : ∀ {front rest : List Char} {cause : SyntaxError.Cause},
      Refusal levels j front rest cause → Refusal (levels + 1) l front rest cause)
    (hbehind : ∀ (d : Derivation j) (op : Connective) {front rest : List Char}
      {cause : SyntaxError.Cause}, d.levels ≤ levels → op.isTight = tight →
        Refusal levels k front rest cause →
        Refusal (levels + 1) l (d.chars ++ op.symbol :: front) rest cause)
    (h : readChain (readAt levels j) (readAt levels k) tight r = .error e) :
    Refused (levels + 1) l r e := by
  rw [readChain_eq_error_iff] at h
  rcases h with hleft | ⟨φ, s, op, cs, hleft, hop, hcs, hright⟩
  · obtain ⟨front, rest, hchars, hposition, hrefusal⟩ := ih hleft
    exact ⟨front, rest, hchars, hposition, hfirst hrefusal⟩
  · -- The first operand has been read, so it is a derivation.
    obtain ⟨d, hd, htext, -, hs, -⟩ := exists_derivation_of_readAt hleft
    obtain ⟨front, rest, hchars, hposition, hrefusal⟩ := ih hright
    obtain rfl : cs = front ++ rest := hchars
    refine ⟨_, rest, ?_, ?_, hbehind d op hd hop hrefusal⟩
    · rw [htext, hcs, List.append_assoc, List.cons_append]
    · rw [hposition, hs, add_length_append_cons]

/-- A text of a category that fails is refused. -/
theorem refused_of_readAt {k : Category} (h : readAt levels k r = .error e) :
    Refused levels k r e := by
  induction levels generalizing k r e with
  | zero =>
    cases k with
    | expression => cases h; exact ⟨[], _, rfl, rfl, .unopened _ (by decide)⟩
    | conjunction => cases h; exact ⟨[], _, rfl, rfl, .unopened _ (by decide)⟩
    | factor =>
      refine refused_of_readFactor (fun p cs e hgroup => ?_) h
      cases hgroup
      exact ⟨[], _, rfl, rfl, fun negated => .opening negated⟩
  | succ levels ih =>
    cases k with
    | expression =>
      rw [readAt_expression_succ] at h
      exact refused_of_readChain ih .inConjunction
        (fun d op _ _ _ hd hop => .inExpression d hd op hop) h
    | conjunction =>
      rw [readAt_conjunction_succ] at h
      refine refused_of_readChain ih .inFactor (fun d op front rest cause hd hop => ?_) h
      obtain rfl := Connective.eq_and_of_isTight hop
      exact .inConjunct d hd
    | factor =>
      refine refused_of_readFactor (fun p cs e hgroup => ?_) h
      rw [readRule_group_succ, readGroup_eq_error_iff] at hgroup
      rcases hgroup with hinner | ⟨φ, s, hinner, hclose, rfl⟩
      · obtain ⟨front, rest, hchars, hposition, hrefusal⟩ := ih hinner
        refine ⟨'(' :: front, rest, congrArg _ hchars, ?_, fun negated => .inGroup negated hrefusal⟩
        exact hposition.trans (Nat.add_right_comm p 1 front.length)
      · -- The expression has been read, so it is a derivation, and the text goes on behind it.
        obtain ⟨d, hd, htext, -, hs, hstops⟩ := exists_derivation_of_readAt hinner
        refine ⟨'(' :: d.chars, s.chars, congrArg _ htext, ?_,
          fun negated => .closing negated d hd hstops hclose⟩
        exact hs.trans (Nat.add_right_comm p 1 d.chars.length)

end Errors

/-! ### Refusals are errors -/

/-- The position behind a sign, a character and a text. -/
theorem add_length_signed_cons (p : Nat) (negated : Bool) (c : Char) (cs : List Char) :
    p + (signed negated (c :: cs)).length = p + negated.toNat + 1 + cs.length := by
  rw [length_signed, List.length_cons]
  omega

/-- Behind an optional sign and an opening parenthesis, a factor fails where the group does. -/
theorem readAt_signed_group_eq_error_iff {levels p : Nat} {negated : Bool} {cs : List Char}
    {e : SyntaxError} :
    readAt levels .factor ⟨p, signed negated ('(' :: cs)⟩ = .error e ↔
      readRule levels .group ⟨p + negated.toNat, '(' :: cs⟩ = .error e := by
  rw [readAt, readFactor_signed_cons (by decide), readOperand_group_eq_error_iff]

theorem signed_prefix_signed (negated : Bool) {cs cs' : List Char} (h : cs <+: cs') :
    signed negated cs <+: signed negated cs' := by
  cases negated
  · exact h
  · exact List.cons_prefix_cons.mpr ⟨rfl, h⟩

/-- Whether a text is continued depends on the first character of the rest only. -/
theorem Category.Stops.congr {k : Category} {rest rest' : List Char} (h : k.Stops rest)
    (hhead : rest.head? = rest'.head?) : k.Stops rest' := by
  rintro op cs rfl
  obtain ⟨cs', rfl⟩ := List.head?_eq_some_iff.mp hhead
  exact h op cs' rfl

namespace Refusal

variable {levels : Nat} {k : Category} {front rest : List Char} {cause : SyntaxError.Cause}

/-- A text of a category that is refused fails. -/
theorem readAt_eq_error (h : Refusal levels k front rest cause) (p : Nat) :
    readAt levels k ⟨p, front ++ rest⟩ = .error ⟨p + front.length, cause⟩ := by
  induction h generalizing p with
  | unopened k hk =>
    cases k with
    | expression => rfl
    | conjunction => rfl
    | factor => exact absurd rfl hk
  | inConjunction _ ih => exact readChain_eq_error_iff.mpr (Or.inl (ih p))
  | inExpression d hd op hop _ ih =>
    have hleft (cs : List Char) := d.readAt_eq_ok p hd
      (show Category.conjunction.Stops (op.symbol :: cs) from Category.stops_symbol_cons hop)
    rw [List.append_assoc, List.cons_append, add_length_append_cons, readAt_expression_succ]
    exact readChain_eq_error_iff.mpr (Or.inr ⟨_, _, op, _, hleft _, hop, rfl, ih _⟩)
  | inFactor _ ih => exact readChain_eq_error_iff.mpr (Or.inl (ih p))
  | inConjunct d hd _ ih =>
    have hleft (cs : List Char) := d.readAt_eq_ok p hd
      (Category.stops_factor (Connective.and.symbol :: cs))
    rw [List.append_assoc, List.cons_append, add_length_append_cons, readAt_conjunction_succ]
    exact readChain_eq_error_iff.mpr (Or.inr ⟨_, _, .and, _, hleft _, rfl, rfl, ih _⟩)
  | operand negated hsign h =>
    rw [signed_append, List.nil_append, length_signed, readAt, readFactor_signed hsign]
    exact readOperand_eq_error_iff.mpr (Or.inl ⟨h, rfl⟩)
  | opening negated =>
    rw [signed_append, List.nil_append, length_signed]
    exact readAt_signed_group_eq_error_iff.mpr rfl
  | inGroup negated _ ih =>
    rw [signed_append, List.cons_append, add_length_signed_cons, readAt_signed_group_eq_error_iff,
      readRule_group_succ]
    exact readGroup_eq_error_iff.mpr (Or.inl (ih _))
  | closing negated d hd hrest h =>
    rw [signed_append, List.cons_append, add_length_signed_cons, readAt_signed_group_eq_error_iff,
      readRule_group_succ]
    exact readGroup_eq_error_iff.mpr (Or.inr ⟨_, _, d.readAt_eq_ok _ hd hrest, h, rfl⟩)

/-- What has been read before the refusal can be completed, unless it nests too deeply. -/
theorem exists_derivation (h : Refusal levels k front rest cause) (hcause : cause ≠ .tooDeep) :
    ∃ d : Derivation k, d.levels ≤ levels ∧ front <+: d.chars := by
  induction h with
  | unopened hk => exact absurd rfl hcause
  | inConjunction _ ih =>
    obtain ⟨d, hd, hfront⟩ := ih hcause
    exact ⟨.ofConjunction d, Nat.succ_le_succ hd, hfront⟩
  | inExpression d hd op hop _ ih =>
    obtain ⟨e, he, hfront⟩ := ih hcause
    refine ⟨.loose d op hop e, Nat.succ_le_succ (Nat.max_le.mpr ⟨hd, he⟩), ?_⟩
    exact (List.prefix_append_right_inj d.chars).mpr (List.cons_prefix_cons.mpr ⟨rfl, hfront⟩)
  | inFactor _ ih =>
    obtain ⟨d, hd, hfront⟩ := ih hcause
    exact ⟨.ofFactor d, Nat.succ_le_succ hd, hfront⟩
  | inConjunct d hd _ ih =>
    obtain ⟨e, he, hfront⟩ := ih hcause
    refine ⟨.tight d e, Nat.succ_le_succ (Nat.max_le.mpr ⟨hd, he⟩), ?_⟩
    exact (List.prefix_append_right_inj d.chars).mpr (List.cons_prefix_cons.mpr ⟨rfl, hfront⟩)
  | operand negated hsign h =>
    -- Any digit will do as the missing operand.
    refine ⟨.digit negated false, Nat.zero_le _, ?_⟩
    exact signed_prefix_signed negated (List.nil_prefix)
  | opening negated => exact absurd rfl hcause
  | inGroup negated _ ih =>
    obtain ⟨d, hd, hfront⟩ := ih hcause
    refine ⟨.group negated d, Nat.succ_le_succ hd, signed_prefix_signed negated ?_⟩
    exact List.cons_prefix_cons.mpr ⟨rfl, hfront.trans (List.prefix_append _ _)⟩
  | closing negated d hd hrest h =>
    refine ⟨.group negated d, Nat.succ_le_succ hd, signed_prefix_signed negated ?_⟩
    exact List.cons_prefix_cons.mpr ⟨rfl, List.prefix_append _ _⟩

/-- Of what follows the refusal, only the first character matters, and for a nesting that is found
too deep before the end of the text not even that. -/
theorem congr (h : Refusal levels k front rest cause) {rest' : List Char}
    (hrest : rest.head? = rest'.head? ∨ rest = [] ∧ cause = .tooDeep) :
    Refusal levels k front rest' cause := by
  induction h with
  | unopened k hk => exact .unopened k hk
  | inConjunction _ ih => exact .inConjunction (ih hrest)
  | inExpression d hd op hop _ ih => exact .inExpression d hd op hop (ih hrest)
  | inFactor _ ih => exact .inFactor (ih hrest)
  | inConjunct d hd _ ih => exact .inConjunct d hd (ih hrest)
  | operand negated hsign h =>
    have hhead := hrest.resolve_right fun hdeep => by cases hdeep.2
    rw [hhead] at hsign ⊢
    exact .operand negated hsign fun c hc => h c (hhead.trans hc)
  | opening negated =>
    have hhead := hrest.resolve_right fun hdeep => by cases hdeep.1
    obtain ⟨rest', rfl⟩ := List.head?_eq_some_iff.mp hhead.symm
    exact .opening negated
  | inGroup negated _ ih => exact .inGroup negated (ih hrest)
  | closing negated d hd hstops h =>
    have hhead := hrest.resolve_right fun hdeep => by cases hdeep.2
    rw [hhead] at h ⊢
    exact .closing negated d hd (hstops.congr hhead) h

/-- The reported character is the one that has not been read. -/
theorem found?_eq (h : Refusal levels k front rest cause) (hcause : cause ≠ .tooDeep) :
    cause.found? = rest.head? := by
  induction h with
  | unopened | opening => exact absurd rfl hcause
  | operand | closing => rfl
  | inConjunction _ ih | inExpression _ _ _ _ _ ih | inFactor _ ih | inConjunct _ _ _ ih
  | inGroup _ _ ih => exact ih hcause

end Refusal

/-- The errors of the reader on a text of a category are the refusals of the text. -/
theorem readAt_eq_error_iff {levels : Nat} {k : Category} {r : Unread} {e : SyntaxError} :
    readAt levels k r = .error e ↔ Refused levels k r e := by
  refine ⟨refused_of_readAt, fun h => ?_⟩
  obtain ⟨p, cs⟩ := r
  obtain ⟨q, cause⟩ := e
  obtain ⟨front, rest, rfl, rfl, hrefusal⟩ := h
  exact hrefusal.readAt_eq_error p

/-! ### Whole texts -/

/-- The reader gives up on a whole text when it has read `front` and sees `rest`: inside an
expression, or because the text goes on behind it. -/
inductive TextRefusal (levels : Nat) :
    (front rest : List Char) → SyntaxError.Cause → Prop where
  | inExpression {front rest : List Char} {cause : SyntaxError.Cause}
    (h : Refusal levels .expression front rest cause) : TextRefusal levels front rest cause
  | trailing {c : Char} {rest : List Char} (d : Derivation .expression) (hd : d.levels ≤ levels)
    (hrest : Category.expression.Stops (c :: rest)) :
    TextRefusal levels d.chars (c :: rest) (.trailing c)

namespace TextRefusal

variable {levels : Nat} {front rest : List Char} {cause : SyntaxError.Cause}

theorem found?_eq (h : TextRefusal levels front rest cause) (hcause : cause ≠ .tooDeep) :
    cause.found? = rest.head? := by
  cases h with
  | inExpression h => exact h.found?_eq hcause
  | trailing d hd hrest => rfl

theorem exists_derivation (h : TextRefusal levels front rest cause) (hcause : cause ≠ .tooDeep) :
    ∃ d : Derivation .expression, d.levels ≤ levels ∧ front <+: d.chars := by
  cases h with
  | inExpression h => exact h.exists_derivation hcause
  | trailing d hd hrest => exact ⟨d, hd, List.prefix_rfl⟩

theorem congr (h : TextRefusal levels front rest cause) {rest' : List Char}
    (hrest : rest.head? = rest'.head? ∨ rest = [] ∧ cause = .tooDeep) :
    TextRefusal levels front rest' cause := by
  cases h with
  | inExpression h => exact .inExpression (h.congr hrest)
  | trailing d hd hstops =>
    have hhead := hrest.resolve_right fun hdeep => by cases hdeep.2
    obtain ⟨rest', rfl⟩ := List.head?_eq_some_iff.mp hhead.symm
    exact .trailing d hd (hstops.congr hhead)

end TextRefusal

namespace Formula

/-- The errors of the reader on a whole text are the refusals of the text. -/
theorem ofCharsWithin_eq_error_iff {levels : Nat} {cs : List Char} {e : SyntaxError} :
    ofCharsWithin levels cs = .error e ↔
      ∃ front rest, cs = front ++ rest ∧ e.position = front.length ∧
        TextRefusal levels front rest e.cause := by
  rw [ofCharsWithin, bind_eq_error_iff, Prod.exists]
  constructor
  · rintro (hexpression | ⟨φ, r, hexpression, hend⟩)
    · obtain ⟨front, rest, hcs, hposition, hrefusal⟩ :=
        (readAt_eq_error_iff (k := .expression)).mp hexpression
      exact ⟨front, rest, hcs, hposition.trans (Nat.zero_add _), .inExpression hrefusal⟩
    · obtain ⟨d, hd, htext, -, hr, hstops⟩ :=
        exists_derivation_of_readAt (k := .expression) hexpression
      dsimp only at hend htext hr
      split at hend
      · cases hend
      · rename_i c rest hrest
        cases hend
        rw [hrest] at htext hstops
        exact ⟨d.chars, c :: rest, htext, hr.trans (Nat.zero_add _), .trailing d hd hstops⟩
  · rintro ⟨front, rest, rfl, hposition, hrefusal⟩
    obtain ⟨p, cause⟩ := e
    obtain rfl : p = front.length := hposition
    cases hrefusal with
    | inExpression h =>
      exact Or.inl ((readAt_eq_error_iff (k := .expression)).mpr
        ⟨front, rest, rfl, (Nat.zero_add _).symm, h⟩)
    | trailing d hd hrest =>
      have hok := d.readAt_eq_ok 0 hd hrest
      rw [Nat.zero_add] at hok
      exact Or.inr ⟨_, _, hok, rfl⟩

theorem parse_eq_error_iff {s : String} {e : ParseError} :
    parse s = .error e ↔
      e.input = s ∧ ∃ front rest, s.toList = front ++ rest ∧ e.error.position = front.length ∧
        TextRefusal maxNesting front rest e.error.cause := by
  rw [parse, mapError_eq_error_iff, ofChars]
  simp only [ofCharsWithin_eq_error_iff]
  constructor
  · rintro ⟨e', hrefusal, rfl⟩
    exact ⟨rfl, hrefusal⟩
  · rintro ⟨rfl, hrefusal⟩
    exact ⟨e.error, hrefusal, rfl⟩

end Formula

/-! ### What can become a formula -/

/-- Some text that starts with the given characters is a formula. -/
def Viable (cs : List Char) : Prop := ∃ t φ, cs <+: t.toList ∧ Formula.parse t = .ok φ

namespace TextRefusal

variable {front rest : List Char} {cause : SyntaxError.Cause}

/-- Before the refusal nothing is wrong, unless the text nests too deeply. -/
theorem viable (h : TextRefusal maxNesting front rest cause) (hcause : cause ≠ .tooDeep) :
    Viable front := by
  obtain ⟨d, hd, hfront⟩ := h.exists_derivation hcause
  have hchars : (String.ofList d.chars).toList = d.chars := String.toList_ofList
  refine ⟨String.ofList d.chars, d.placed 0, ?_, ?_⟩
  · rwa [hchars]
  · exact Formula.parse_eq_ok_iff.mpr ⟨d, hchars.symm, hd, rfl⟩

/-- With the character that is refused, or behind a nesting that is too deep, nothing can be made
good any more. -/
theorem not_viable (h : TextRefusal maxNesting front rest cause)
    (hrest : rest ≠ [] ∨ cause = .tooDeep) : ¬ Viable (front ++ rest.take 1) := by
  rintro ⟨t, φ, ⟨tail, ht⟩, hparse⟩
  have hrefusal : TextRefusal maxNesting front (rest.take 1 ++ tail) cause := by
    apply h.congr
    cases rest with
    | nil => exact Or.inr ⟨rfl, hrest.resolve_left fun hne => hne rfl⟩
    | cons c cs => exact Or.inl rfl
  have herror : Formula.parse t = .error ⟨⟨front.length, cause⟩, t⟩ :=
    Formula.parse_eq_error_iff.mpr
      ⟨rfl, front, rest.take 1 ++ tail, by rw [← ht, List.append_assoc], rfl, hrefusal⟩
  rw [hparse] at herror
  cases herror

end TextRefusal

/-- A syntax error points into the text or at its end, and reports the character that stands there.
The text before this character can be completed to a formula, and the text up to and including it
cannot. If the formula nests too deeply, then what has been read up to there, with the character
where the limit is reached, cannot be completed. -/
theorem parse_error_position {s : String} {e : ParseError} (h : Formula.parse s = .error e) :
    e.error.position ≤ s.length ∧
    (∀ c, e.error.cause.found? = some c → s.toList[e.error.position]? = some c) ∧
    (e.error.cause = .operandExpected none ∨ e.error.cause = .closingExpected none →
      e.error.position = s.length) ∧
    (e.error.cause ≠ .tooDeep →
      Viable (s.toList.take e.error.position) ∧
      (e.error.position < s.length → ¬ Viable (s.toList.take (e.error.position + 1)))) ∧
    (e.error.cause = .tooDeep →
      ¬ Viable (s.toList.take (min (e.error.position + 1) s.length))) := by
  obtain ⟨-, front, rest, hs, hposition, hrefusal⟩ := Formula.parse_eq_error_iff.mp h
  have hlength : s.length = front.length + rest.length := by
    rw [← String.length_toList, hs, List.length_append]
  have hhead : s.toList[front.length]? = rest.head? := by
    rw [hs, List.getElem?_append_right (Nat.le_refl _), Nat.sub_self, List.head?_eq_getElem?]
  have hfront : s.toList.take front.length = front := by rw [hs, List.take_left]
  have hnext : s.toList.take (front.length + 1) = front ++ rest.take 1 := by
    rw [hs, List.take_append, List.take_of_length_le (Nat.le_succ _), Nat.add_sub_cancel_left]
  rw [hposition]
  refine ⟨by omega, fun c hc => ?_, fun hend => ?_, fun hcause => ⟨?_, fun hlt => ?_⟩,
    fun hcause => ?_⟩
  · have hcause : e.error.cause ≠ .tooDeep := fun hdeep => by rw [hdeep] at hc; cases hc
    rw [hhead, ← hrefusal.found?_eq hcause, hc]
  · have hfound : e.error.cause.found? = none := by rcases hend with heq | heq <;> rw [heq] <;> rfl
    have hcause : e.error.cause ≠ .tooDeep := by rcases hend with heq | heq <;> rw [heq] <;> decide
    rw [hrefusal.found?_eq hcause, List.head?_eq_none_iff] at hfound
    rw [hlength, hfound, List.length_nil, Nat.add_zero]
  · rw [hfront]
    exact hrefusal.viable hcause
  · rw [hnext]
    refine hrefusal.not_viable (Or.inl fun hnil => ?_)
    rw [hlength, hnil, List.length_nil] at hlt
    omega
  · rw [← String.length_toList, ← List.take_eq_take_min, hnext]
    exact hrefusal.not_viable (Or.inr hcause)

/-- A second operator in a row is refused at its own place, and everything before it could have
become a formula. -/
theorem parse_error_position_operator :
    Formula.parse "a|&b" = .error ⟨⟨2, .operandExpected (some '&')⟩, "a|&b"⟩ ∧
      Viable ['a', '|'] ∧ ¬ Viable ['a', '|', '&'] := by
  have hrun : Formula.parse "a|&b" = .error ⟨⟨2, .operandExpected (some '&')⟩, "a|&b"⟩ := by rfl
  obtain ⟨-, -, -, hviable, -⟩ := parse_error_position hrun
  obtain ⟨hfront, hnext⟩ := hviable (by decide)
  exact ⟨hrun, hfront, hnext (by decide)⟩

end PrimeForm
