import PrimeForm.Proofs.RoundLevels
import PrimeForm.Proofs.Outcome

/-!
# Terms as text

The text of a term has one character for each position. It can be read back, and a text of any
other kind is refused at its first foreign character. The three characters are single bytes, in the
order of the positions they stand for. So terms, which are compared position by position, are in the
byte order of their texts, also when one text is the beginning of the other.

## Main definitions

* `bytes` — the bytes of a text
* `Term.alphabet` — the characters of which terms are written

## Main results

* `Term.parse_eq_ok_iff` — a text is read as the term that it is the text of
* `Term.parse_eq_error_iff` — the character that is reported
* `Term.compare_bytes_text` — the order of terms is the byte order of their texts
* `Term.text_outcome` — terms and their texts
* `pairwise_bytes_of_primeImplicants` — the order in which prime implicants are written
-/

namespace PrimeForm

/-! ### Texts in byte order -/

/-- The bytes of a text in UTF-8. In byte order, texts are compared byte by byte, and the beginning
of a text comes before it. -/
def bytes (text : String) : List UInt8 := text.toUTF8.data.toList

theorem bytes_ofList (cs : List Char) :
    bytes (String.ofList cs) = cs.flatMap String.utf8EncodeChar := by
  rw [bytes, String.toUTF8, String.toByteArray_ofList, List.utf8Encode,
    List.toList_data_toByteArray]

/-- A function that keeps the order of entries keeps the order of lists of entries. -/
theorem compare_map {α β : Type} [Ord α] [Ord β] {f : α → β}
    (h : ∀ a b, compare (f a) (f b) = compare a b) (l l' : List α) :
    compare (l.map f) (l'.map f) = compare l l' := by
  induction l generalizing l' with
  | nil => cases l' <;> rfl
  | cons a l ih =>
    cases l' with
    | nil => rfl
    | cons b l' =>
      rw [List.map_cons, List.map_cons, List.compare_cons_cons, List.compare_cons_cons, h, ih]

namespace Term

variable {t : Term} {text : String} {c : Char} {bit : Option Bool} {start : Nat} {cs : List Char}
  {bits : List (Option Bool)} {e : TermError}

/-- The byte that is written for a position. -/
def symbolByte (bit : Option Bool) : UInt8 := (symbol bit).val.toUInt8

theorem utf8EncodeChar_symbol (bit : Option Bool) :
    String.utf8EncodeChar (symbol bit) = [symbolByte bit] := by
  have hsize : (symbol bit).utf8Size = 1 := by rcases bit with _ | _ | _ <;> rfl
  exact String.utf8EncodeChar_eq_singleton hsize

/-- The bytes of positions are in the order of the positions. -/
theorem compare_symbolByte (a b : Option Bool) :
    compare (symbolByte a) (symbolByte b) = compare a b := by
  rcases a with _ | _ | _ <;> rcases b with _ | _ | _ <;> rfl

theorem bytes_text (t : Term) : bytes t.text = t.bits.map symbolByte := by
  rw [Term.text, bytes_ofList, symbols, List.flatMap_map, List.map_eq_flatMap]
  simp only [utf8EncodeChar_symbol]

/-- The order of terms is the byte order of their texts. -/
theorem compare_bytes_text (s t : Term) :
    compare (bytes s.text) (bytes t.text) = compare s t := by
  rw [bytes_text, bytes_text, compare_map compare_symbolByte, compare_eq]

/-! ### Reading a text -/

/-- The characters of which terms are written. -/
def alphabet : List Char := ['-', '0', '1']

theorem position?_eq_some_iff : position? c = some bit ↔ symbol bit = c := by
  constructor
  · intro h
    rw [position?] at h
    split at h
    · rename_i hopen
      obtain rfl := Option.some.inj h
      exact hopen.symm
    · obtain ⟨value, hvalue, rfl⟩ := Option.map_eq_some_iff.mp h
      exact (Digit.toBool?_eq_some_iff.mp hvalue).symm
  · rintro rfl
    exact position?_symbol bit

theorem mem_alphabet_iff : c ∈ alphabet ↔ ∃ bit, symbol bit = c := by
  simp [alphabet, Option.exists, symbol, Digit.ofBool, eq_comm]

theorem position?_eq_none_iff : position? c = none ↔ c ∉ alphabet := by
  simp only [Option.eq_none_iff_forall_ne_some, ne_eq, position?_eq_some_iff, mem_alphabet_iff,
    not_exists]

theorem bitsOfChars_eq_ok_iff : bitsOfChars start cs = .ok bits ↔ bits.map symbol = cs := by
  induction cs generalizing start bits with
  | nil => simp [bitsOfChars, eq_comm]
  | cons c cs ih =>
    rw [bitsOfChars]
    cases hc : position? c with
    | none =>
      -- No position is written with this character.
      refine iff_of_false (by simp) fun hmap => ?_
      obtain ⟨bit, bits, rfl, hbit, -⟩ := List.map_eq_cons_iff.mp hmap
      exact position?_eq_none_iff.mp hc (mem_alphabet_iff.mpr ⟨bit, hbit⟩)
    | some bit =>
      rw [map_eq_ok_iff, List.map_eq_cons_iff]
      constructor
      · rintro ⟨bits, hbits, rfl⟩
        exact ⟨bit, bits, rfl, position?_eq_some_iff.mp hc, ih.mp hbits⟩
      · rintro ⟨bit', bits, rfl, hbit, hbits⟩
        obtain rfl : bit = bit' := Option.some.inj (hc.symm.trans (position?_eq_some_iff.mpr hbit))
        exact ⟨bits, ih.mpr hbits, rfl⟩

/-- The characters are refused because of the first of them that stands for no position. -/
theorem bitsOfChars_eq_error_iff :
    bitsOfChars start cs = .error e ↔ ∃ c p, e = .invalidSymbol c p ∧
      (cs.zipIdx start).find? (fun mark => (position? mark.1).isNone) = some (c, p) := by
  induction cs generalizing start with
  | nil => simp [bitsOfChars]
  | cons c cs ih =>
    rw [bitsOfChars, List.zipIdx_cons, List.find?_cons]
    cases hc : position? c with
    | none => simp [eq_comm]
    | some bit => simp [map_eq_error_iff, ih]

/-- A text is read as the term that it is the text of, and as no other. -/
theorem parse_eq_ok_iff : parse text = .ok t ↔ t.text = text := by
  obtain ⟨bits⟩ := t
  rw [parse, map_eq_ok_iff, ← String.toList_inj, toList_text, symbols]
  simp [bitsOfChars_eq_ok_iff]

/-- A text is refused because of its first character that is foreign to terms. -/
theorem parse_eq_error_iff :
    parse text = .error e ↔ ∃ before c after, text.toList = before ++ c :: after ∧
      (∀ d ∈ before, d ∈ alphabet) ∧ c ∉ alphabet ∧ e = .invalidSymbol c before.length := by
  have hforeign (c : Char) : (position? c).isNone = true ↔ c ∉ alphabet := by
    rw [Option.isNone_iff_eq_none, position?_eq_none_iff]
  have hknown (c : Char) : (position? c).isNone = false ↔ c ∈ alphabet := by
    rw [← Bool.not_eq_true, hforeign, not_not]
  have hfirst (c : Char) (p : Nat) :=
    @find?_zipIdx_eq_some_iff (fun d => (position? d).isNone) text.toList c p
  rw [parse, map_eq_error_iff, bitsOfChars_eq_error_iff]
  simp only [hfirst, hforeign, hknown]
  constructor
  · rintro ⟨c, p, rfl, before, after, htext, rfl, hbefore, hc⟩
    exact ⟨before, c, after, htext, hbefore, hc, rfl⟩
  · rintro ⟨before, c, after, htext, hbefore, hc, rfl⟩
    exact ⟨c, before.length, rfl, before, after, htext, rfl, hbefore, hc⟩

/-! ### Terms and their texts -/

/-- The text of a term is read as this term and no other text is. A text that is not the text of a
term is refused because of its first character other than `0`, `1` and `-`, with the position of
this character. The order of terms is the byte order of their texts, whatever their widths. -/
theorem text_outcome (s t : Term) (text : String) :
    (parse text = .ok t ↔ t.text = text) ∧
    (∀ e, parse text = .error e ↔ ∃ before c after, text.toList = before ++ c :: after ∧
      (∀ d ∈ before, d ∈ alphabet) ∧ c ∉ alphabet ∧ e = .invalidSymbol c before.length) ∧
    compare s t = compare (bytes s.text) (bytes t.text) :=
  ⟨parse_eq_ok_iff, fun _ => parse_eq_error_iff, (compare_bytes_text s t).symm⟩

end Term

/-- The texts of the prime implicants are listed in strictly ascending byte order. -/
theorem pairwise_bytes_of_primeImplicants {n : Nat} {ms : List Minterm} {ts : List Term}
    (h : primeImplicants n ms = .ok ts) :
    (ts.map Term.text).Pairwise fun x y => compare (bytes x) (bytes y) = .lt := by
  have hrange : InRange n ms := outOfRange?_eq_none_iff.mp (of_primeImplicants_eq_ok h).1
  obtain ⟨primes, hok, hsorted, -⟩ := exists_primeImplicants_eq_ok hrange
  obtain rfl : ts = primes := Except.ok.inj (h.symm.trans hok)
  refine List.pairwise_map.mpr (hsorted.imp fun {s t} hlt => ?_)
  rw [Term.compare_bytes_text, hlt]

end PrimeForm
