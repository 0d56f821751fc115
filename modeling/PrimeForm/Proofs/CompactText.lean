import PrimeForm.Proofs.Product

/-!
# The compact text of a sum

The text of a sum writes products between bars and the literals of a product side by side, without
a sign between them. Over lowercase letters it can be read in one way only: a letter ends a
literal, and a negation sign starts one. So the text of a sum determines the function of the sum,
whatever its variables are.

## Main definitions

* `Product.symbols` — the characters of a product
* `PieceHolds` — the function that a text between two bars stands for

## Main results

* `Product.symbols_injective` — literals side by side can be told apart
* `SumOfProducts.value_toFormula_iff_pieceHolds` — the function of a sum, read off its text
-/

namespace PrimeForm

open SumOfProducts

namespace Product

variable {L L' : Product} {l : Char × Bool} {ν : Char → Bool}

/-- The characters of the literals, side by side. -/
def symbols (L : Product) : List Char := L.flatMap literalSymbols

/-- The names of the literals are lowercase letters. -/
def Lower (L : Product) : Prop := ∀ l ∈ L, l.1.isLower = true

/-- A lowercase letter is none of the signs of the notation. -/
theorem ne_of_isLower {x c : Char} (hx : x.isLower = true) (hc : c.isLower = false) : x ≠ c := by
  intro heq
  rw [heq, hc] at hx
  cases hx

theorem symbols_cons (l : Char × Bool) (L : Product) :
    symbols (l :: L) = literalSymbols l ++ symbols L :=
  List.flatMap_cons

theorem symbols_cons_ne_nil : symbols (l :: L) ≠ [] := by
  obtain ⟨x, b⟩ := l
  cases b <;> simp [symbols_cons, literalSymbols]

/-- Literals that stand side by side can be told apart. -/
theorem symbols_injective (h : L.Lower) (h' : L'.Lower) (heq : L.symbols = L'.symbols) :
    L = L' := by
  induction L generalizing L' with
  | nil =>
    cases L' with
    | nil => rfl
    | cons l' L' => exact absurd heq.symm symbols_cons_ne_nil
  | cons l L ih =>
    cases L' with
    | nil => exact absurd heq symbols_cons_ne_nil
    | cons l' L' =>
      obtain ⟨hl, hL⟩ := List.forall_mem_cons.mp h
      obtain ⟨hl', hL'⟩ := List.forall_mem_cons.mp h'
      have hsign := ne_of_isLower hl (show '!'.isLower = false by decide)
      have hsign' := (ne_of_isLower hl' (show '!'.isLower = false by decide)).symm
      obtain ⟨x, b⟩ := l
      obtain ⟨y, c⟩ := l'
      -- The first character tells whether the literal is negated.
      have hhead : (x, b) = (y, c) ∧ symbols L = symbols L' := by
        cases b <;> cases c <;> simp_all [symbols_cons, literalSymbols]
      rw [hhead.1, ih hL hL' hhead.2]

theorem mem_symbols {c : Char} (hc : c ∈ L.symbols) : c = '!' ∨ ∃ l ∈ L, c = l.1 := by
  obtain ⟨⟨x, b⟩, hl, hc⟩ := List.mem_flatMap.mp hc
  cases b with
  | false =>
    rcases List.mem_pair.mp hc with hsign | hx
    · exact Or.inl hsign
    · exact Or.inr ⟨_, hl, hx⟩
  | true => exact Or.inr ⟨_, hl, List.mem_singleton.mp hc⟩

/-- Products are written without signs other than that of negation. -/
theorem Lower.not_mem_symbols (h : L.Lower) {c : Char} (hc : c.isLower = false) (hsign : c ≠ '!') :
    c ∉ L.symbols := by
  intro hmem
  rcases mem_symbols hmem with heq | ⟨l, hl, heq⟩
  · exact hsign heq
  · exact ne_of_isLower (h l hl) hc heq.symm

end Product

/-! ### The text between two bars -/

/-- A text between two bars holds under a valuation: it is the constant `1`, or there is a product
that is written like this, and it holds. -/
def PieceHolds (cs : List Char) (ν : Char → Bool) : Prop :=
  cs = ['1'] ∨ ∃ L : Product, L ≠ [] ∧ L.Lower ∧ L.symbols = cs ∧ L.Holds ν

variable {names : List Char} {ν : Char → Bool} {t : Term} {sum : SumOfProducts}

theorem not_pieceHolds_nil : ¬ PieceHolds [] ν := by
  intro h
  rcases h with hnil | ⟨L, hne, -, hsymbols, -⟩
  · cases hnil
  · cases L with
    | nil => exact hne rfl
    | cons l L => exact Product.symbols_cons_ne_nil hsymbols

theorem pieceHolds_symbols_iff {L : Product} (hne : L ≠ []) (hlower : L.Lower) :
    PieceHolds L.symbols ν ↔ L.Holds ν := by
  refine ⟨fun h => ?_, fun hholds => Or.inr ⟨L, hne, hlower, rfl, hholds⟩⟩
  rcases h with hone | ⟨L', -, hlower', hsymbols, hholds⟩
  · exact absurd (hone ▸ List.mem_singleton_self '1')
      (hlower.not_mem_symbols (by decide) (by decide))
  · rwa [← Product.symbols_injective hlower' hlower hsymbols]

/-- The digits are the constants. -/
theorem pieceHolds_ofBool_iff {b : Bool} : PieceHolds [Digit.ofBool b] ν ↔ b = true := by
  cases b with
  | true => exact iff_of_true (Or.inl rfl) rfl
  | false =>
    refine iff_of_false (fun h => ?_) Bool.false_ne_true
    rcases h with hone | ⟨L, -, hlower, hsymbols, -⟩
    · exact absurd hone (by decide)
    · -- No product is written with a digit.
      exact hlower.not_mem_symbols (c := '0') (by decide) (by decide)
        (hsymbols ▸ List.mem_singleton_self _)

/-- The text of a product determines where the product is true. -/
theorem pieceHolds_productSymbols_iff (hlower : ∀ x ∈ names, x.isLower = true)
    (hwidth : t.width = names.length) :
    PieceHolds (productSymbols names t) ν ↔ t.Admits (names.map ν) := by
  rw [← forall_literals_iff hwidth, productSymbols]
  split
  · rename_i hopen
    rw [(literals_eq_nil_iff hwidth).mpr hopen]
    exact iff_of_true (Or.inl rfl) fun _ hl => absurd hl List.not_mem_nil
  · rename_i hopen
    refine pieceHolds_symbols_iff (mt (literals_eq_nil_iff hwidth).mp hopen) ?_
    intro l hl
    exact hlower l.1 (mem_names_of_mem_literals hl)

theorem not_mem_productSymbols (hlower : ∀ x ∈ names, x.isLower = true) :
    '|' ∉ productSymbols names t := by
  rw [productSymbols]
  split
  · decide
  · refine Product.Lower.not_mem_symbols (fun l hl => ?_) (by decide) (by decide)
    exact hlower l.1 (mem_names_of_mem_literals hl)

namespace SumOfProducts

/-- The function of a sum over lowercase letters can be read off its text: it is true where one of
the pieces between the bars is. -/
theorem value_toFormula_iff_pieceHolds (hfits : sum.Fits names)
    (hlower : ∀ x ∈ names, x.isLower = true) :
    sum.toFormula.value ν = true ↔ ∃ cs ∈ sum.symbols.splitOn '|', PieceHolds cs ν := by
  rw [value_toFormula_iff hfits]
  cases sum with
  | constant b =>
    have hsplit : [Digit.ofBool b].splitOn '|' = [[Digit.ofBool b]] := by cases b <;> decide
    rw [symbols, hsplit]
    simp [Admits, pieceHolds_ofBool_iff]
  | implicants names' ts =>
    obtain ⟨rfl, hwidth⟩ := hfits
    rw [symbols]
    by_cases hts : ts = []
    · -- Without terms the text is empty.
      subst hts
      simp [Admits, not_pieceHolds_nil]
    · rw [List.splitOn_intercalate]
      · simp only [Admits, List.map_reverse, List.mem_reverse, List.mem_map,
          exists_exists_and_eq_and]
        exact exists_congr fun t => and_congr_right fun ht =>
          (pieceHolds_productSymbols_iff hlower (hwidth t ht)).symm
      · intro cs hcs
        obtain ⟨t, -, rfl⟩ := List.mem_map.mp hcs
        exact not_mem_productSymbols hlower
      · simpa using hts

/-- Sums with the same text have the same function, whatever their variables are. -/
theorem value_toFormula_congr {names' : List Char} {sum' : SumOfProducts}
    (hfits : sum.Fits names) (hlower : ∀ x ∈ names, x.isLower = true)
    (hfits' : sum'.Fits names') (hlower' : ∀ x ∈ names', x.isLower = true)
    (htext : sum.text = sum'.text) : sum.toFormula.value ν = sum'.toFormula.value ν := by
  rw [Bool.eq_iff_iff, value_toFormula_iff_pieceHolds hfits hlower,
    value_toFormula_iff_pieceHolds hfits' hlower', ← toList_text, ← toList_text, htext]

end SumOfProducts

end PrimeForm
