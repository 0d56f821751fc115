import PrimeForm.Proofs.Grammar.Derivation
import PrimeForm.Proofs.Outcome

/-!
# Reading and the grammar

The reader follows the grammar: it reads every derivation that does not nest too deeply, provided
that the text behind it does not continue the derivation, and everything it reads is such a
derivation. A derivation that nests too deeply makes it give up, whatever follows.

## Main definitions

* `readAt` — what is read for a category

## Main results

* `Derivation.readAt_eq_ok` — derivations are read
* `Derivation.readAt_eq_tooDeep` — derivations beyond the level budget are refused
* `exists_derivation_of_readAt` — what is read is a derivation
* `Formula.parse_eq_ok_iff` — the texts that are read as a formula
* `Formula.exists_parse_eq_ok`, `Formula.exists_parse_eq_tooDeep` — the two outcomes of reading the
  text of a derivation
* `parse_iff_derivation` — the grammar, the trees and the limit in one statement
-/

namespace PrimeForm

/-! ### Connectives at the front of a text -/

namespace Unread

variable {r : Unread} {tight : Bool} {op : Connective}

theorem connective?_eq_some_iff :
    r.connective? tight = some op ↔ op.isTight = tight ∧ ∃ cs, r.chars = op.symbol :: cs := by
  rw [connective?, Option.filter_eq_some_iff, Option.bind_eq_some_iff]
  simp only [List.head?_eq_some_iff, Connective.ofSymbol?_eq_some_iff, exists_eq_right, beq_iff_eq]
  exact and_comm

theorem connective?_eq_none_iff :
    r.connective? tight = none ↔
      ∀ (op : Connective) (cs : List Char), r.chars = op.symbol :: cs → op.isTight ≠ tight := by
  rw [Option.eq_none_iff_forall_ne_some]
  constructor
  · intro h op cs hcs htight
    exact h op (connective?_eq_some_iff.mpr ⟨htight, cs, hcs⟩)
  · intro h op hop
    obtain ⟨htight, cs, hcs⟩ := connective?_eq_some_iff.mp hop
    exact h op cs hcs htight

theorem next_eq {c : Char} {cs : List Char} (h : r.chars = c :: cs) :
    r.next = ⟨r.position + 1, cs⟩ := by
  obtain ⟨p, cs'⟩ := r
  obtain rfl : cs' = c :: cs := h
  rfl

end Unread

/-! ### The reader step by step -/

section Steps

variable {operand chain group : Unread → Reading} {tight negated : Bool} {r t : Unread}
  {φ : Formula} {e : SyntaxError} {x : Char} {cs : List Char}

/-- A chain is its operand alone, or its operand, a connective and the rest of the chain. -/
theorem readChain_eq_ok_iff :
    readChain operand chain tight r = .ok (φ, t) ↔
      (operand r = .ok (φ, t) ∧ t.connective? tight = none) ∨
        ∃ ψ s op cs χ, operand r = .ok (ψ, s) ∧ op.isTight = tight ∧ s.chars = op.symbol :: cs ∧
          chain ⟨s.position + 1, cs⟩ = .ok (χ, t) ∧ φ = .binary op ψ χ s.position := by
  rw [readChain, bind_eq_ok_iff, Prod.exists]
  constructor
  · intro h
    obtain ⟨ψ, s, hleft, hrest⟩ := h
    dsimp only at hrest
    cases hop : s.connective? tight with
    | none =>
      rw [hop] at hrest
      cases hrest
      exact Or.inl ⟨hleft, hop⟩
    | some op =>
      rw [hop] at hrest
      obtain ⟨⟨χ, u⟩, hright, heq⟩ := bind_eq_ok_iff.mp hrest
      cases heq
      obtain ⟨htight, cs, hcs⟩ := Unread.connective?_eq_some_iff.mp hop
      rw [Unread.next_eq hcs] at hright
      exact Or.inr ⟨ψ, s, op, cs, χ, hleft, htight, hcs, hright, rfl⟩
  · intro h
    rcases h with ⟨hleft, hnone⟩ | ⟨ψ, s, op, cs, χ, hleft, htight, hcs, hright, rfl⟩
    · refine ⟨φ, t, hleft, ?_⟩
      dsimp only
      rw [hnone]
      rfl
    · refine ⟨ψ, s, hleft, ?_⟩
      dsimp only
      rw [Unread.connective?_eq_some_iff.mpr ⟨htight, cs, hcs⟩, Unread.next_eq hcs]
      exact bind_eq_ok_iff.mpr ⟨(χ, t), hright, rfl⟩

/-- A chain fails where its operand or the rest of the chain does. -/
theorem readChain_eq_error_iff :
    readChain operand chain tight r = .error e ↔ operand r = .error e ∨
      ∃ (ψ : Formula) (s : Unread) (op : Connective) (cs : List Char), operand r = .ok (ψ, s) ∧
        op.isTight = tight ∧ s.chars = op.symbol :: cs ∧
          chain ⟨s.position + 1, cs⟩ = .error e := by
  rw [readChain, bind_eq_error_iff, Prod.exists]
  refine or_congr_right (exists_congr fun ψ => exists_congr fun s => ?_)
  simp only [exists_and_left]
  apply and_congr_right
  intro _
  cases hop : s.connective? tight with
  | none =>
    -- Without a connective the chain ends here, and nothing can fail any more.
    refine iff_of_false (fun h => by cases h) fun h => ?_
    obtain ⟨op, htight, cs, hcs, -⟩ := h
    exact Unread.connective?_eq_none_iff.mp hop op cs hcs htight
  | some op =>
    obtain ⟨htight, cs, hcs⟩ := Unread.connective?_eq_some_iff.mp hop
    have hright : (chain s.next >>= fun rest => (.ok (.binary op ψ rest.1 s.position, rest.2) :
        Reading)) = .error e ↔ chain ⟨s.position + 1, cs⟩ = .error e := by
      rw [bind_eq_error_iff, Unread.next_eq hcs]
      simp
    refine hright.trans ⟨fun h => ⟨op, htight, cs, hcs, h⟩, fun h => ?_⟩
    obtain ⟨op', -, cs', hcs', h⟩ := h
    rwa [(List.cons.inj (hcs.symm.trans hcs')).2]

/-- A group is read when the expression in it is, up to the closing parenthesis. -/
theorem readGroup_eq_ok_iff :
    readGroup chain r = .ok (φ, t) ↔
      ∃ s cs, chain r.next = .ok (φ, s) ∧ s.chars = ')' :: cs ∧ t = ⟨s.position + 1, cs⟩ := by
  rw [readGroup, bind_eq_ok_iff, Prod.exists]
  refine ⟨fun ⟨ψ, s, hexpression, hclose⟩ => ?_, fun ⟨s, cs, hexpression, hcs, ht⟩ => ?_⟩
  · dsimp only at hclose
    split at hclose
    · rename_i cs hcs
      cases hclose
      exact ⟨s, cs, hexpression, hcs, Unread.next_eq hcs⟩
    · cases hclose
  · refine ⟨φ, s, hexpression, ?_⟩
    dsimp only
    rw [ht, hcs, Unread.next_eq hcs]
    rfl

theorem exists_eq_signed (cs : List Char) :
    ∃ negated cs', cs = signed negated cs' ∧ (negated = true ∨ cs'.head? ≠ some '!') := by
  by_cases hsign : cs.head? = some '!'
  · obtain ⟨cs', rfl⟩ := List.head?_eq_some_iff.mp hsign
    exact ⟨true, cs', rfl, Or.inl rfl⟩
  · exact ⟨false, cs, rfl, Or.inr hsign⟩

/-- A factor is an operand behind its sign. -/
theorem readFactor_signed {p : Nat} (h : negated = true ∨ cs.head? ≠ some '!') :
    readFactor group ⟨p, signed negated cs⟩ =
      readOperand group negated ⟨p + negated.toNat, cs⟩ := by
  cases negated with
  | true => rfl
  | false => exact if_neg (h.resolve_left Bool.false_ne_true)

theorem readFactor_signed_cons {p : Nat} {c : Char} (hc : c ≠ '!') :
    readFactor group ⟨p, signed negated (c :: cs)⟩ =
      readOperand group negated ⟨p + negated.toNat, c :: cs⟩ :=
  readFactor_signed (Or.inr fun h => hc (Option.some.inj h))

theorem toBool?_eq_none_of_isAlpha (hx : x.isAlpha = true) : Digit.toBool? x = none := by
  rw [Option.eq_none_iff_forall_ne_some]
  intro b hb
  exact ne_of_isAlpha hx (isAlpha_ofBool b) (Digit.toBool?_eq_some_iff.mp hb)

/-- An operand that is read is a letter, a digit or a group. -/
theorem readOperand_eq_ok_iff :
    readOperand group negated r = .ok (φ, t) ↔
      (∃ x, x.isAlpha = true ∧ r.chars = x :: t.chars ∧ t.position = r.position + 1 ∧
        φ = .negateIf negated (.var x r.position)) ∨
      (∃ b, r.chars = Digit.ofBool b :: t.chars ∧ t.position = r.position + 1 ∧
        φ = .literal (b != negated)) ∨
      ∃ cs ψ, r.chars = '(' :: cs ∧ group r = .ok (ψ, t) ∧ φ = .negateIf negated ψ := by
  obtain ⟨p, cs⟩ := r
  obtain ⟨q, rest⟩ := t
  dsimp only
  constructor
  · intro h
    cases cs with
    | nil => cases h
    | cons c cs =>
      simp only [readOperand] at h
      split at h
      · rename_i b hdigit
        cases h
        exact Or.inr (Or.inl ⟨b, by rw [Digit.toBool?_eq_some_iff.mp hdigit], rfl, rfl⟩)
      · split at h
        · rename_i hletter
          cases h
          exact Or.inl ⟨c, hletter, rfl, rfl, rfl⟩
        · split at h
          · rename_i hopening
            obtain ⟨⟨ψ, t⟩, hgroup, heq⟩ := bind_eq_ok_iff.mp h
            cases heq
            exact Or.inr (Or.inr ⟨cs, ψ, by rw [hopening], hgroup, rfl⟩)
          · cases h
  · intro h
    rcases h with ⟨x, hx, rfl, rfl, rfl⟩ | ⟨b, rfl, rfl, rfl⟩ | ⟨cs, ψ, rfl, hgroup, rfl⟩
    · simp only [readOperand, toBool?_eq_none_of_isAlpha hx, if_pos hx, Unread.next]
    · simp only [readOperand, Digit.toBool?_ofBool, Unread.next]
    · have hopening : readOperand group negated ⟨p, '(' :: cs⟩ =
          (group ⟨p, '(' :: cs⟩ >>= fun inner => .ok (.negateIf negated inner.1, inner.2)) := rfl
      rw [hopening, hgroup]
      rfl

/-- An operand that starts with a parenthesis fails where the group does. -/
theorem readOperand_group_eq_error_iff {p : Nat} :
    readOperand group negated ⟨p, '(' :: cs⟩ = .error e ↔ group ⟨p, '(' :: cs⟩ = .error e := by
  have hgroup : readOperand group negated ⟨p, '(' :: cs⟩ =
      (group ⟨p, '(' :: cs⟩ >>= fun inner => .ok (.negateIf negated inner.1, inner.2)) := rfl
  rw [hgroup, bind_eq_error_iff]
  simp

end Steps

/-! ### Derivations are read -/

/-- A formula of a category, read with at most `levels` rules open. -/
def readAt (levels : Nat) : Category → Unread → Reading
  | .expression, r => readRule levels .expression r
  | .conjunction, r => readRule levels .conjunction r
  | .factor, r => readFactor (readRule levels .group) r

theorem readAt_expression_succ (levels : Nat) (r : Unread) :
    readAt (levels + 1) .expression r =
      readChain (readAt levels .conjunction) (readAt levels .expression) false r :=
  rfl

theorem readAt_conjunction_succ (levels : Nat) (r : Unread) :
    readAt (levels + 1) .conjunction r =
      readChain (readAt levels .factor) (readAt levels .conjunction) true r :=
  rfl

theorem readRule_group_succ (levels : Nat) (r : Unread) :
    readRule (levels + 1) .group r = readGroup (readAt levels .expression) r :=
  rfl

/-- The reader sees no connective that would continue what it has read. -/
theorem Category.Stops.connective?_eq_none {k : Category} {r : Unread} {tight : Bool}
    (h : k.Stops r.chars) (htakes : ∀ op : Connective, op.isTight = tight → k.takes op = true) :
    r.connective? tight = none := by
  rw [Unread.connective?_eq_none_iff]
  intro op cs hcs hop
  have hstops := h op cs hcs
  rw [htakes op hop] at hstops
  cases hstops

namespace Derivation

variable {k : Category} {levels : Nat} {rest : List Char}

/-- A derivation within the level budget is read, together with its positions, and what follows it
is left. -/
theorem readAt_eq_ok (d : Derivation k) (p : Nat) (hlevels : d.levels ≤ levels)
    (hrest : k.Stops rest) :
    readAt levels k ⟨p, d.chars ++ rest⟩ =
      .ok (d.placed p, ⟨p + d.chars.length, rest⟩) := by
  induction d generalizing levels p rest with
  | ofConjunction d ih =>
    cases levels with
    | zero => exact absurd hlevels (Nat.not_succ_le_zero _)
    | succ levels =>
      have hleft := ih p (Nat.le_of_succ_le_succ hlevels) hrest.conjunction
      rw [readAt_expression_succ]
      apply readChain_eq_ok_iff.mpr
      exact Or.inl ⟨hleft, hrest.connective?_eq_none fun _ _ => rfl⟩
  | loose d op hop e ihd ihe =>
    cases levels with
    | zero => exact absurd hlevels (Nat.not_succ_le_zero _)
    | succ levels =>
      obtain ⟨hd, he⟩ := Nat.max_le.mp (Nat.le_of_succ_le_succ hlevels)
      -- Behind the left operand stands the connective, and this does not continue it.
      have hstops : Category.conjunction.Stops (op.symbol :: (e.chars ++ rest)) :=
        Category.stops_symbol_cons hop
      have hright := ihe (p + d.chars.length + 1) he hrest
      rw [chars_loose_append, readAt_expression_succ, readChain_eq_ok_iff, chars,
        add_length_append_cons]
      exact Or.inr ⟨_, _, op, _, _, ihd p hd hstops, hop, rfl, hright, rfl⟩
  | ofFactor d ih =>
    cases levels with
    | zero => exact absurd hlevels (Nat.not_succ_le_zero _)
    | succ levels =>
      have hleft := ih p (Nat.le_of_succ_le_succ hlevels) (Category.stops_factor rest)
      rw [readAt_conjunction_succ]
      apply readChain_eq_ok_iff.mpr
      exact Or.inl ⟨hleft, hrest.connective?_eq_none fun _ hop => by exact hop⟩
  | tight d e ihd ihe =>
    cases levels with
    | zero => exact absurd hlevels (Nat.not_succ_le_zero _)
    | succ levels =>
      obtain ⟨hd, he⟩ := Nat.max_le.mp (Nat.le_of_succ_le_succ hlevels)
      have hstops := Category.stops_factor (Connective.and.symbol :: (e.chars ++ rest))
      have hright := ihe (p + d.chars.length + 1) he hrest
      rw [chars_tight_append, readAt_conjunction_succ, readChain_eq_ok_iff, chars,
        add_length_append_cons]
      exact Or.inr ⟨_, _, .and, _, _, ihd p hd hstops, rfl, rfl, hright, rfl⟩
  | letter negated x hx =>
    rw [chars_letter_append, readAt, readFactor_signed_cons (ne_sign_of_isAlpha hx),
      readOperand_eq_ok_iff, chars, length_signed]
    exact Or.inl ⟨x, hx, rfl, by simp [Nat.add_assoc], rfl⟩
  | digit negated b =>
    rw [chars_digit_append, readAt, readFactor_signed_cons (Digit.ofBool_ne_sign b),
      readOperand_eq_ok_iff, chars, length_signed]
    exact Or.inr (Or.inl ⟨b, rfl, by simp [Nat.add_assoc], rfl⟩)
  | group negated d ih =>
    cases levels with
    | zero => exact absurd hlevels (Nat.not_succ_le_zero _)
    | succ levels =>
      have hinner := ih (p + negated.toNat + 1) (Nat.le_of_succ_le_succ hlevels)
        (Category.stops_closing _ rest)
      rw [chars_group_append, readAt, readFactor_signed_cons (by decide), readOperand_eq_ok_iff,
        chars, length_signed]
      refine Or.inr (Or.inr ⟨_, d.placed (p + negated.toNat + 1), rfl, ?_, rfl⟩)
      rw [readRule_group_succ]
      apply readGroup_eq_ok_iff.mpr
      refine ⟨_, rest, hinner, rfl, ?_⟩
      simp only [List.length_cons, List.length_append, List.length_nil, Unread.mk.injEq, and_true]
      omega

/-- A derivation beyond the level budget is refused, whatever follows it. -/
theorem readAt_eq_tooDeep (d : Derivation k) (p : Nat) (rest : List Char)
    (hlevels : levels < d.levels) :
    ∃ q, readAt levels k ⟨p, d.chars ++ rest⟩ = .error ⟨q, .tooDeep⟩ := by
  induction d generalizing levels p rest with
  | ofConjunction d ih =>
    cases levels with
    | zero => exact ⟨p, rfl⟩
    | succ levels =>
      obtain ⟨q, hq⟩ := ih p rest (Nat.lt_of_succ_lt_succ hlevels)
      exact ⟨q, readChain_eq_error_iff.mpr (Or.inl hq)⟩
  | loose d op hop e ihd ihe =>
    cases levels with
    | zero => exact ⟨p, rfl⟩
    | succ levels =>
      rw [chars_loose_append, readAt_expression_succ]
      rcases Nat.lt_or_ge levels d.levels with hd | hd
      · obtain ⟨q, hq⟩ := ihd p (op.symbol :: (e.chars ++ rest)) hd
        exact ⟨q, readChain_eq_error_iff.mpr (Or.inl hq)⟩
      · -- The left operand is read, so it is the right one that nests too deeply.
        have he : levels < e.levels := by
          have hmax : levels < max d.levels e.levels := Nat.lt_of_succ_lt_succ hlevels
          omega
        have hstops : Category.conjunction.Stops (op.symbol :: (e.chars ++ rest)) :=
          Category.stops_symbol_cons hop
        have hleft := d.readAt_eq_ok p hd hstops
        obtain ⟨q, hq⟩ := ihe (p + d.chars.length + 1) rest he
        exact ⟨q, readChain_eq_error_iff.mpr (Or.inr ⟨_, _, op, _, hleft, hop, rfl, hq⟩)⟩
  | ofFactor d ih =>
    cases levels with
    | zero => exact ⟨p, rfl⟩
    | succ levels =>
      obtain ⟨q, hq⟩ := ih p rest (Nat.lt_of_succ_lt_succ hlevels)
      exact ⟨q, readChain_eq_error_iff.mpr (Or.inl hq)⟩
  | tight d e ihd ihe =>
    cases levels with
    | zero => exact ⟨p, rfl⟩
    | succ levels =>
      rw [chars_tight_append, readAt_conjunction_succ]
      rcases Nat.lt_or_ge levels d.levels with hd | hd
      · obtain ⟨q, hq⟩ := ihd p (Connective.and.symbol :: (e.chars ++ rest)) hd
        exact ⟨q, readChain_eq_error_iff.mpr (Or.inl hq)⟩
      · have he : levels < e.levels := by
          have hmax : levels < max d.levels e.levels := Nat.lt_of_succ_lt_succ hlevels
          omega
        have hstops := Category.stops_factor (Connective.and.symbol :: (e.chars ++ rest))
        have hleft := d.readAt_eq_ok p hd hstops
        obtain ⟨q, hq⟩ := ihe (p + d.chars.length + 1) rest he
        exact ⟨q, readChain_eq_error_iff.mpr (Or.inr ⟨_, _, .and, _, hleft, rfl, rfl, hq⟩)⟩
  | letter => exact absurd hlevels (Nat.not_lt_zero _)
  | digit => exact absurd hlevels (Nat.not_lt_zero _)
  | group negated d ih =>
    rw [chars_group_append, readAt, readFactor_signed_cons (by decide)]
    simp only [readOperand_group_eq_error_iff]
    cases levels with
    | zero => exact ⟨p + negated.toNat, rfl⟩
    | succ levels =>
      obtain ⟨q, hq⟩ := ih (p + negated.toNat + 1) (')' :: rest)
        (Nat.lt_of_succ_lt_succ hlevels)
      exact ⟨q, bind_eq_error_iff.mpr (Or.inl hq)⟩

end Derivation

/-! ### What is read is a derivation -/

/-- A factor that is read is derived, if groups are. -/
theorem exists_derivation_of_readFactor {group : Unread → Reading} {levels : Nat}
    (hgroup : ∀ r φ t, group r = .ok (φ, t) → ∃ d : Derivation .expression,
      d.levels + 1 ≤ levels ∧ r.next.chars = d.chars ++ ')' :: t.chars ∧
        φ = d.placed r.next.position ∧ t.position = r.next.position + d.chars.length + 1)
    {r t : Unread} {φ : Formula} (h : readFactor group r = .ok (φ, t)) :
    ∃ d : Derivation .factor, d.levels ≤ levels ∧ r.chars = d.chars ++ t.chars ∧
      φ = d.placed r.position ∧ t.position = r.position + d.chars.length := by
  obtain ⟨p, cs⟩ := r
  -- Every text is a text behind a sign, which may be missing.
  obtain ⟨negated, cs, rfl, hsign⟩ := exists_eq_signed cs
  rw [readFactor_signed hsign, readOperand_eq_ok_iff] at h
  dsimp only at h ⊢
  rcases h with ⟨x, hx, rfl, hq, rfl⟩ | ⟨b, rfl, hq, rfl⟩ | ⟨cs', ψ, rfl, hread, rfl⟩
  · refine ⟨.letter negated x hx, Nat.zero_le _, ?_, rfl, ?_⟩
    · rw [Derivation.chars_letter_append]
    · rw [Derivation.chars, length_signed, hq]
      exact Nat.add_assoc _ _ _
  · refine ⟨.digit negated b, Nat.zero_le _, ?_, rfl, ?_⟩
    · rw [Derivation.chars_digit_append]
    · rw [Derivation.chars, length_signed, hq]
      exact Nat.add_assoc _ _ _
  · obtain ⟨d, hlevels, htext, rfl, hq⟩ := hgroup _ _ _ hread
    refine ⟨.group negated d, hlevels, ?_, rfl, ?_⟩
    · rw [Derivation.chars_group_append, show cs' = d.chars ++ ')' :: t.chars from htext]
    · rw [Derivation.chars, length_signed, hq]
      simp only [Unread.next, List.length_cons, List.length_append, List.length_nil]
      omega

/-- What is read is a derivation within the level budget, and what is left does not continue it. -/
theorem exists_derivation_of_readAt {levels : Nat} {k : Category} {r t : Unread} {φ : Formula}
    (h : readAt levels k r = .ok (φ, t)) :
    ∃ d : Derivation k, d.levels ≤ levels ∧ r.chars = d.chars ++ t.chars ∧
      φ = d.placed r.position ∧ t.position = r.position + d.chars.length ∧ k.Stops t.chars := by
  induction levels generalizing k r φ t with
  | zero =>
    cases k with
    | expression => cases h
    | conjunction => cases h
    | factor =>
      obtain ⟨d, hd⟩ := exists_derivation_of_readFactor (fun _ _ _ hgroup => by cases hgroup) h
      exact ⟨d, hd.1, hd.2.1, hd.2.2.1, hd.2.2.2, Category.stops_factor _⟩
  | succ levels ih =>
    cases k with
    | expression =>
      rw [readAt_expression_succ, readChain_eq_ok_iff] at h
      rcases h with ⟨hleft, hnone⟩ | ⟨ψ, s, op, cs, χ, hleft, hop, hcs, hright, rfl⟩
      · obtain ⟨d, hd, htext, hφ, ht, hstops⟩ := ih hleft
        refine ⟨.ofConjunction d, Nat.succ_le_succ hd, htext, hφ, ht, fun op cs hcs => ?_⟩
        -- A connective behind the conjunction would be neither tight nor loose.
        exact absurd (hstops op cs hcs) (Unread.connective?_eq_none_iff.mp hnone op cs hcs)
      · obtain ⟨d, hd, htext, rfl, hs, -⟩ := ih hleft
        obtain ⟨e, he, hrest, rfl, ht, hstops⟩ := ih hright
        dsimp only at hrest ht
        refine ⟨.loose d op hop e, Nat.succ_le_succ (Nat.max_le.mpr ⟨hd, he⟩), ?_, ?_, ?_, hstops⟩
        · rw [htext, hcs, hrest, Derivation.chars_loose_append]
        · rw [hs]
          rfl
        · rw [ht, hs, Derivation.chars, add_length_append_cons]
    | conjunction =>
      rw [readAt_conjunction_succ, readChain_eq_ok_iff] at h
      rcases h with ⟨hleft, hnone⟩ | ⟨ψ, s, op, cs, χ, hleft, hop, hcs, hright, rfl⟩
      · -- No sign of conjunction follows, so the conjunction is this factor.
        obtain ⟨d, hd, htext, hφ, ht, hstops⟩ := ih hleft
        refine ⟨.ofFactor d, Nat.succ_le_succ hd, htext, hφ, ht, fun op cs hcs => ?_⟩
        exact Bool.eq_false_iff.mpr (Unread.connective?_eq_none_iff.mp hnone op cs hcs)
      · obtain ⟨d, hd, htext, rfl, hs, -⟩ := ih hleft
        obtain ⟨e, he, hrest, rfl, ht, hstops⟩ := ih hright
        obtain rfl := Connective.eq_and_of_isTight hop
        dsimp only at hrest ht
        refine ⟨.tight d e, Nat.succ_le_succ (Nat.max_le.mpr ⟨hd, he⟩), ?_, ?_, ?_, hstops⟩
        · rw [htext, hcs, hrest, Derivation.chars_tight_append]
        · rw [hs]
          rfl
        · rw [ht, hs, Derivation.chars, add_length_append_cons]
    | factor =>
      -- A group leaves one level less to the expression in it.
      have hgroup (r : Unread) (φ : Formula) (t : Unread)
          (hread : readRule (levels + 1) .group r = .ok (φ, t)) :
          ∃ d : Derivation .expression, d.levels + 1 ≤ levels + 1 ∧
            r.next.chars = d.chars ++ ')' :: t.chars ∧ φ = d.placed r.next.position ∧
              t.position = r.next.position + d.chars.length + 1 := by
        rw [readRule_group_succ, readGroup_eq_ok_iff] at hread
        obtain ⟨s, cs, hinner, hcs, rfl⟩ := hread
        obtain ⟨d, hd, htext, rfl, hs, -⟩ := ih hinner
        exact ⟨d, Nat.succ_le_succ hd, by rw [htext, hcs], rfl, by rw [hs]⟩
      obtain ⟨d, hd, htext, hφ, ht⟩ := exists_derivation_of_readFactor hgroup h
      exact ⟨d, hd, htext, hφ, ht, Category.stops_factor _⟩

/-! ### Whole texts -/

namespace Formula

/-- A whole text is read exactly when it has a derivation within the level budget, and the formula
is that of the derivation. -/
theorem ofCharsWithin_eq_ok_iff {levels : Nat} {cs : List Char} {φ : Formula} :
    ofCharsWithin levels cs = .ok φ ↔
      ∃ d : Derivation .expression, d.chars = cs ∧ d.levels ≤ levels ∧ d.placed 0 = φ := by
  rw [ofCharsWithin, bind_eq_ok_iff]
  refine ⟨fun ⟨⟨ψ, r⟩, hψ, hend⟩ => ?_, fun ⟨d, hd, hlevels, hφ⟩ => ?_⟩
  · obtain ⟨d, hd, htext, rfl, -, -⟩ := exists_derivation_of_readAt (k := .expression) hψ
    dsimp only at hend htext
    split at hend
    · rename_i hnil
      rw [hnil, List.append_nil] at htext
      exact ⟨d, htext.symm, hd, Except.ok.inj hend⟩
    · cases hend
  · -- Nothing is left behind the derivation, so nothing can continue it.
    have hok := d.readAt_eq_ok 0 hlevels (Category.stops_nil _)
    rw [List.append_nil, hd, hφ] at hok
    exact ⟨_, hok, rfl⟩

/-- A whole text whose derivation exceeds the level budget is refused for this reason. -/
theorem ofCharsWithin_eq_tooDeep {levels : Nat} (d : Derivation .expression)
    (h : levels < d.levels) : ∃ q, ofCharsWithin levels d.chars = .error ⟨q, .tooDeep⟩ := by
  obtain ⟨q, hq⟩ := d.readAt_eq_tooDeep 0 [] h
  rw [List.append_nil] at hq
  exact ⟨q, bind_eq_error_iff.mpr (Or.inl hq)⟩

/-- The texts that are read as a formula, and the formula that they are read as. -/
theorem parse_eq_ok_iff {s : String} {φ : Formula} :
    parse s = .ok φ ↔
      ∃ d : Derivation .expression,
        d.chars = s.toList ∧ d.levels ≤ maxNesting ∧ d.placed 0 = φ := by
  rw [parse, mapError_eq_ok_iff, ofChars, ofCharsWithin_eq_ok_iff]

/-- A text whose derivation is within the limit is read as the formula of the derivation. -/
theorem exists_parse_eq_ok {s : String} (d : Derivation .expression) (hd : d.chars = s.toList)
    (hlevels : d.levels ≤ maxNesting) : ∃ ψ, parse s = .ok ψ ∧ ψ.unplaced = d.tree :=
  ⟨d.placed 0, parse_eq_ok_iff.mpr ⟨d, hd, hlevels, rfl⟩, d.unplaced_placed 0⟩

/-- A text whose derivation exceeds the limit is refused for its nesting. -/
theorem exists_parse_eq_tooDeep {s : String} (d : Derivation .expression) (hd : d.chars = s.toList)
    (hlevels : maxNesting < d.levels) : ∃ q, parse s = .error ⟨⟨q, .tooDeep⟩, s⟩ := by
  obtain ⟨q, hq⟩ := ofCharsWithin_eq_tooDeep d hlevels
  refine ⟨q, ?_⟩
  rw [parse, ofChars, ← hd, hq]
  rfl

end Formula

/-- The reader accepts the texts that have a derivation within `maxNesting` levels. A text has no
more than one derivation; if this is within the limit, the formula read is its tree, and otherwise
the text is refused as nesting too deeply. -/
theorem parse_iff_derivation (s : String) :
    (∀ d d' : Derivation .expression, d.chars = s.toList → d'.chars = s.toList → d = d') ∧
    (∀ φ, (∃ ψ, Formula.parse s = .ok ψ ∧ ψ.unplaced = φ) ↔
      ∃ d : Derivation .expression, d.chars = s.toList ∧ d.levels ≤ maxNesting ∧ d.tree = φ) ∧
    (∀ d : Derivation .expression, d.chars = s.toList → maxNesting < d.levels →
      ∃ q, Formula.parse s = .error ⟨⟨q, .tooDeep⟩, s⟩) := by
  refine ⟨fun d d' hd hd' => Derivation.eq_of_chars_eq (hd.trans hd'.symm), fun φ => ?_,
    Formula.exists_parse_eq_tooDeep⟩
  constructor
  · rintro ⟨ψ, hψ, hφ⟩
    obtain ⟨d, hd, hlevels, hplaced⟩ := Formula.parse_eq_ok_iff.mp hψ
    exact ⟨d, hd, hlevels, by rw [← hφ, ← hplaced, d.unplaced_placed]⟩
  · rintro ⟨d, hd, hlevels, rfl⟩
    exact Formula.exists_parse_eq_ok d hd hlevels

end PrimeForm
