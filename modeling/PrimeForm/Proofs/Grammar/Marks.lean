import PrimeForm.Proofs.Grammar.Printing

/-!
# What a text says, and where

The letters and connectives of a text that is read as a formula are the variables and connectives
of the formula: none is lost, none is added, and each is at the position where the text has it. The
same is true of the digits, of which those behind a negation sign count as the opposite ones, and of
all other negation signs.

## Main definitions

* `isMark`, `marksFrom` — the letters and connectives of a text, with their positions
* `digitsFrom`, `keptSigns` — its digits, and the number of signs that are not in front of a digit
* `Formula.marks` — the variables and connectives of a formula, from left to right
* `Formula.digits`, `Formula.negations` — its truth values from left to right, and its negations

## Main results

* `Derivation.marks_placed` — the marks of a derivation are those of its text
* `Derivation.digits_placed`, `Derivation.negations_placed` — digits and negations
* `Formula.occurrences_of_parse` — the mentions of variables are the letters of the text
* `Formula.contents_of_parse` — all that a text says
-/

namespace PrimeForm

/-- Is the character a letter or the symbol of a connective? -/
def isMark (c : Char) : Bool := c.isAlpha || (Connective.ofSymbol? c).isSome

/-- The letters and connectives of a text that starts at a position. -/
def marksFrom (p : Nat) (cs : List Char) : List (Char × Nat) :=
  (cs.zipIdx p).filter fun mark => isMark mark.1

section Text

variable {c : Char} {cs : List Char} {p : Nat}

theorem isMark_of_isAlpha (h : c.isAlpha = true) : isMark c = true := by
  rw [isMark, h, Bool.true_or]

theorem isMark_symbol (op : Connective) : isMark op.symbol = true := by cases op <;> decide

theorem isAlpha_symbol (op : Connective) : op.symbol.isAlpha = false := by cases op <;> decide

theorem marksFrom_cons (h : isMark c = true) :
    marksFrom p (c :: cs) = (c, p) :: marksFrom (p + 1) cs :=
  List.filter_cons_of_pos h

theorem marksFrom_cons_of_not (h : isMark c = false) :
    marksFrom p (c :: cs) = marksFrom (p + 1) cs :=
  List.filter_cons_of_neg (Bool.eq_false_iff.mp h)

theorem marksFrom_append (p : Nat) (cs cs' : List Char) :
    marksFrom p (cs ++ cs') = marksFrom p cs ++ marksFrom (p + cs.length) cs' := by
  rw [marksFrom, List.zipIdx_append, List.filter_append]
  rfl

/-- Two texts with a connective between them. -/
theorem marksFrom_append_symbol_cons (p : Nat) (cs : List Char) (op : Connective)
    (cs' : List Char) :
    marksFrom p (cs ++ op.symbol :: cs') =
      marksFrom p cs ++ (op.symbol, p + cs.length) :: marksFrom (p + cs.length + 1) cs' := by
  rw [marksFrom_append, marksFrom_cons (isMark_symbol op)]

/-- A sign is no mark, but it moves the others. -/
theorem marksFrom_signed (negated : Bool) (p : Nat) (cs : List Char) :
    marksFrom p (signed negated cs) = marksFrom (p + negated.toNat) cs := by
  cases negated
  · rfl
  · exact marksFrom_cons_of_not (by decide)

/-! ### Digits and signs of a text -/

/-- The digits of a text as truth values, each the opposite one if it stands directly behind a
negation sign. Whether the text as a whole stands behind one is said beforehand. -/
def digitsFrom : (negated : Bool) → List Char → List Bool
  | _, [] => []
  | negated, c :: cs =>
    ((Digit.toBool? c).map fun b => b != negated).toList ++ digitsFrom (c == '!') cs

/-- The number of negation signs in a text that do not stand directly in front of a digit. -/
def keptSigns : List Char → Nat
  | [] => 0
  | c :: cs => (c == '!' && (cs.head?.bind Digit.toBool?).isNone).toNat + keptSigns cs

/-- Is the character a letter, a connective, a digit, a negation sign or a parenthesis? -/
def isSymbol (c : Char) : Bool :=
  isMark c || (Digit.toBool? c).isSome || c == '!' || c == '(' || c == ')'

theorem toBool?_symbol (op : Connective) : Digit.toBool? op.symbol = none := by cases op <;> rfl

theorem symbol_ne_sign (op : Connective) : op.symbol ≠ '!' := by cases op <;> decide

theorem digitsFrom_cons_of_none (negated : Bool) (h : Digit.toBool? c = none) :
    digitsFrom negated (c :: cs) = digitsFrom (c == '!') cs := by
  rw [digitsFrom, h]
  rfl

/-- Two texts with something other than a digit between them. -/
theorem digitsFrom_append_cons (negated : Bool) (cs : List Char) (h : Digit.toBool? c = none)
    (cs' : List Char) :
    digitsFrom negated (cs ++ c :: cs') = digitsFrom negated cs ++ digitsFrom (c == '!') cs' := by
  induction cs generalizing negated with
  | nil => exact digitsFrom_cons_of_none negated h
  | cons a cs ih => rw [List.cons_append, digitsFrom, ih, digitsFrom, List.append_assoc]

theorem digitsFrom_append_symbol_cons (negated : Bool) (cs : List Char) (op : Connective)
    (cs' : List Char) :
    digitsFrom negated (cs ++ op.symbol :: cs') =
      digitsFrom negated cs ++ digitsFrom false cs' := by
  rw [digitsFrom_append_cons _ _ (toBool?_symbol op), beq_false_of_ne (symbol_ne_sign op)]

theorem digitsFrom_signed (negated : Bool) (cs : List Char) :
    digitsFrom false (signed negated cs) = digitsFrom negated cs := by
  cases negated <;> rfl

theorem keptSigns_cons_of_ne (h : c ≠ '!') (cs : List Char) :
    keptSigns (c :: cs) = keptSigns cs := by
  rw [keptSigns, beq_false_of_ne h, Bool.false_and]
  exact Nat.zero_add _

/-- Two texts with something other than a digit or a sign between them. -/
theorem keptSigns_append_cons (cs : List Char) (h : Digit.toBool? c = none) (hc : c ≠ '!')
    (cs' : List Char) : keptSigns (cs ++ c :: cs') = keptSigns cs + keptSigns cs' := by
  induction cs with
  | nil => rw [List.nil_append, keptSigns_cons_of_ne hc, keptSigns, Nat.zero_add]
  | cons a cs ih =>
    -- The last sign of the first text is not in front of a digit, whatever the second one is.
    have hhead : (cs ++ c :: cs').head?.bind Digit.toBool? = cs.head?.bind Digit.toBool? := by
      cases cs with
      | nil => exact h
      | cons b cs => rfl
    rw [List.cons_append, keptSigns, hhead, ih, keptSigns, Nat.add_assoc]

theorem keptSigns_append_symbol_cons (cs : List Char) (op : Connective) (cs' : List Char) :
    keptSigns (cs ++ op.symbol :: cs') = keptSigns cs + keptSigns cs' :=
  keptSigns_append_cons cs (toBool?_symbol op) (symbol_ne_sign op) cs'

theorem keptSigns_signed_cons (negated : Bool) (hc : c ≠ '!') (cs : List Char) :
    keptSigns (signed negated (c :: cs)) =
      (negated && (Digit.toBool? c).isNone).toNat + keptSigns cs := by
  cases negated with
  | false => exact (keptSigns_cons_of_ne hc cs).trans (Nat.zero_add _).symm
  | true =>
    rw [signed, if_pos rfl, keptSigns, keptSigns_cons_of_ne hc]
    rfl

/-! ### The characters of a text -/

theorem isSymbol_of_isMark (h : isMark c = true) : isSymbol c = true := by
  simp [isSymbol, h]

theorem forall_mem_append_symbol_cons {cs' : List Char} (op : Connective)
    (h : ∀ c ∈ cs, isSymbol c = true) (h' : ∀ c ∈ cs', isSymbol c = true) :
    ∀ c ∈ cs ++ op.symbol :: cs', isSymbol c = true :=
  List.forall_mem_append.mpr
    ⟨h, List.forall_mem_cons.mpr ⟨isSymbol_of_isMark (isMark_symbol op), h'⟩⟩

theorem isSymbol_ofBool (b : Bool) : isSymbol (Digit.ofBool b) = true := by
  simp [isSymbol]

theorem forall_mem_signed (negated : Bool) (h : ∀ c ∈ cs, isSymbol c = true) :
    ∀ c ∈ signed negated cs, isSymbol c = true := by
  cases negated with
  | false => exact h
  | true => exact List.forall_mem_cons.mpr ⟨by rfl, h⟩

end Text

namespace Formula

variable {φ : Formula} {s : String}

/-- The variables and connectives of a formula with their positions, from left to right. A
connective stands between its operands. -/
def marks : Formula → List (Char × Nat)
  | var x p => [(x, p)]
  | literal _ => []
  | neg φ => φ.marks
  | binary op φ ψ p => φ.marks ++ (op.symbol, p) :: ψ.marks

theorem marks_negateIf (negated : Bool) (φ : Formula) : (negateIf negated φ).marks = φ.marks := by
  cases negated <;> rfl

/-- The truth values in a formula, from left to right. -/
def digits : Formula → List Bool
  | var _ _ => []
  | literal b => [b]
  | neg φ => φ.digits
  | binary _ φ ψ _ => φ.digits ++ ψ.digits

/-- The number of negations in a formula. -/
def negations : Formula → Nat
  | var _ _ | literal _ => 0
  | neg φ => φ.negations + 1
  | binary _ φ ψ _ => φ.negations + ψ.negations

theorem digits_negateIf (negated : Bool) (φ : Formula) :
    (negateIf negated φ).digits = φ.digits := by
  cases negated <;> rfl

theorem negations_negateIf (negated : Bool) (φ : Formula) :
    (negateIf negated φ).negations = negated.toNat + φ.negations := by
  cases negated with
  | false => exact (Nat.zero_add _).symm
  | true => exact Nat.add_comm _ 1

/-- The marks that are letters are the mentions of variables. -/
theorem filter_isAlpha_marks (h : φ.Lettered) :
    φ.marks.filter (fun mark => mark.1.isAlpha) = φ.occurrences := by
  induction φ with
  | var x p => exact List.filter_cons_of_pos h
  | literal b => rfl
  | neg φ ih => exact ih h.operand
  | binary op φ ψ p ihφ ihψ =>
    rw [marks, List.filter_append, ihφ h.left, occurrences_binary, ← ihψ h.right]
    exact congrArg _ (List.filter_cons_of_neg (Bool.eq_false_iff.mp (isAlpha_symbol op)))

end Formula

namespace Derivation

variable {k : Category}

/-- The marks of a derivation are those of its text. -/
theorem marks_placed (d : Derivation k) (p : Nat) : (d.placed p).marks = marksFrom p d.chars := by
  induction d generalizing p with
  | ofConjunction d ih => exact ih p
  | loose d op hop e ihd ihe =>
    rw [chars, marksFrom_append_symbol_cons, ← ihd, ← ihe]
    rfl
  | ofFactor d ih => exact ih p
  | tight d e ihd ihe =>
    rw [chars, marksFrom_append_symbol_cons, ← ihd, ← ihe]
    rfl
  | letter negated x hx =>
    rw [placed, Formula.marks_negateIf, chars, marksFrom_signed,
      marksFrom_cons (isMark_of_isAlpha hx)]
    rfl
  | digit negated b =>
    rw [chars, marksFrom_signed, marksFrom_cons_of_not (by cases b <;> decide)]
    rfl
  | group negated d ih =>
    -- Of the two parentheses only the first moves the marks between them.
    rw [placed, Formula.marks_negateIf, ih, chars, marksFrom_signed,
      marksFrom_cons_of_not (by decide), marksFrom_append, marksFrom_cons_of_not (by decide)]
    exact (List.append_nil _).symm

/-- The truth values in the formula of a derivation are the digits of its text. -/
theorem digits_placed (d : Derivation k) (p : Nat) :
    (d.placed p).digits = digitsFrom false d.chars := by
  induction d generalizing p with
  | ofConjunction d ih => exact ih p
  | loose d op hop e ihd ihe =>
    rw [chars, digitsFrom_append_symbol_cons, ← ihd, ← ihe]
    rfl
  | ofFactor d ih => exact ih p
  | tight d e ihd ihe =>
    rw [chars, digitsFrom_append_symbol_cons, ← ihd, ← ihe]
    rfl
  | letter negated x hx =>
    rw [placed, Formula.digits_negateIf, chars, digitsFrom_signed,
      digitsFrom_cons_of_none _ (toBool?_eq_none_of_isAlpha hx)]
    rfl
  | digit negated b =>
    rw [chars, digitsFrom_signed, digitsFrom, Digit.toBool?_ofBool]
    rfl
  | group negated d ih =>
    rw [placed, Formula.digits_negateIf, ih, chars, digitsFrom_signed,
      digitsFrom_cons_of_none _ (by rfl), digitsFrom_append_cons _ _ (by rfl)]
    exact (List.append_nil _).symm

/-- The negations in the formula of a derivation are the signs of its text that are not in front of
a digit. -/
theorem negations_placed (d : Derivation k) (p : Nat) :
    (d.placed p).negations = keptSigns d.chars := by
  induction d generalizing p with
  | ofConjunction d ih => exact ih p
  | loose d op hop e ihd ihe =>
    rw [chars, keptSigns_append_symbol_cons, ← ihd, ← ihe]
    rfl
  | ofFactor d ih => exact ih p
  | tight d e ihd ihe =>
    rw [chars, keptSigns_append_symbol_cons, ← ihd, ← ihe]
    rfl
  | letter negated x hx =>
    rw [placed, Formula.negations_negateIf, chars, keptSigns_signed_cons _ (ne_sign_of_isAlpha hx),
      toBool?_eq_none_of_isAlpha hx, Option.isNone_none, Bool.and_true]
    rfl
  | digit negated b =>
    -- The sign of a digit is not kept, since the formula has the opposite digit instead.
    rw [chars, keptSigns_signed_cons _ (Digit.ofBool_ne_sign b), Digit.toBool?_ofBool,
      Option.isNone_some, Bool.and_false]
    rfl
  | group negated d ih =>
    rw [placed, Formula.negations_negateIf, ih, chars, keptSigns_signed_cons _ (by decide),
      keptSigns_append_cons _ (by rfl) (by decide), show Digit.toBool? '(' = none by rfl,
      Option.isNone_none, Bool.and_true]
    rfl

/-- A derivation spells a text of letters, connectives, digits, signs and parentheses. -/
theorem forall_mem_chars (d : Derivation k) : ∀ c ∈ d.chars, isSymbol c = true := by
  induction d with
  | ofConjunction d ih => exact ih
  | loose d op hop e ihd ihe => exact forall_mem_append_symbol_cons op ihd ihe
  | ofFactor d ih => exact ih
  | tight d e ihd ihe => exact forall_mem_append_symbol_cons .and ihd ihe
  | letter negated x hx =>
    exact forall_mem_signed negated
      (List.forall_mem_singleton.mpr (isSymbol_of_isMark (isMark_of_isAlpha hx)))
  | digit negated b =>
    exact forall_mem_signed negated (List.forall_mem_singleton.mpr (isSymbol_ofBool b))
  | group negated d ih =>
    have hclose : ∀ c ∈ d.chars ++ [')'], isSymbol c = true :=
      List.forall_mem_append.mpr ⟨ih, List.forall_mem_singleton.mpr rfl⟩
    exact forall_mem_signed negated (List.forall_mem_cons.mpr ⟨rfl, hclose⟩)

end Derivation

/-! ### Whole texts -/

namespace Formula

variable {φ : Formula} {s : String}

theorem lettered_of_parse (h : parse s = .ok φ) : φ.Lettered := by
  obtain ⟨d, -, -, rfl⟩ := parse_eq_ok_iff.mp h
  exact d.lettered_placed 0

theorem marks_of_parse (h : parse s = .ok φ) : φ.marks = marksFrom 0 s.toList := by
  obtain ⟨d, hd, -, rfl⟩ := parse_eq_ok_iff.mp h
  rw [d.marks_placed, hd]

/-- The mentions of variables are the letters of the text. -/
theorem occurrences_of_parse (h : parse s = .ok φ) :
    φ.occurrences = s.toList.zipIdx.filter fun mark => mark.1.isAlpha := by
  rw [← filter_isAlpha_marks (lettered_of_parse h), marks_of_parse h, marksFrom, List.filter_filter]
  exact List.filter_congr fun mark _ => by simpa [isMark] using Or.inl

theorem mem_names_of_parse_iff (h : parse s = .ok φ) {x : Char} :
    x ∈ φ.names ↔ x ∈ s.toList ∧ x.isAlpha = true := by
  rw [mem_names_iff, occurrences_of_parse h, List.mem_iff_getElem?]
  simp only [List.mem_filter, List.mem_zipIdx_iff_getElem?, exists_and_right]

/-- A text that is read consists of letters, connectives, digits, signs and parentheses. Its letters
and connectives are those of the formula, at the same positions and in the same order. Its digits
are the truth values of the formula in the same order, those directly behind a sign being the
opposite ones, and all other signs are its negations. -/
theorem contents_of_parse (h : parse s = .ok φ) :
    (∀ c ∈ s.toList, isSymbol c = true) ∧
      φ.marks = marksFrom 0 s.toList ∧
      φ.digits = digitsFrom false s.toList ∧
      φ.negations = keptSigns s.toList := by
  obtain ⟨d, hd, -, rfl⟩ := parse_eq_ok_iff.mp h
  rw [← hd]
  exact ⟨d.forall_mem_chars, d.marks_placed 0, d.digits_placed 0, d.negations_placed 0⟩

/-- A sign before a group is a negation, and a sign before a digit is not. -/
theorem contents_of_parse_signs :
    ∃ φ, parse "!(a^!0)>1" = .ok φ ∧ φ.marks = [('a', 2), ('^', 3), ('>', 7)] ∧
      φ.digits = [true, true] ∧ φ.negations = 1 := by
  have hparse : parse "!(a^!0)>1" = .ok (.binary .imply
      (.neg (.binary .xor (.var 'a' 2) (.literal true) 3)) (.literal true) 7) := by rfl
  obtain ⟨-, hmarks, hdigits, hsigns⟩ := contents_of_parse hparse
  exact ⟨_, hparse, hmarks.trans (by rfl), hdigits.trans (by rfl), hsigns.trans (by rfl)⟩

end Formula

end PrimeForm
