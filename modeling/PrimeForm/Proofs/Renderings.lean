import PrimeForm.Proofs.CompactText
import PrimeForm.Proofs.ParseableText

/-!
# The two texts of a sum

The compact text of a sum is composed from its terms, and the parseable text is the plain text of
its formula. Yet both list the same products, with the same literals, in the same order, and set no
parentheses; all that tells them apart is the sign of conjunction between two literals, which the
compact text leaves out.

## Main definitions

* `separated` — texts with a separator between them
* `SumOfProducts.products` — the products of a sum in the order they are written in
* `SumOfProducts.written` — the text of products, for a given sign between literals

## Main results

* `Formula.symbols_chain` — the plain text of a chain
* `SumOfProducts.symbols_toFormula`, `SumOfProducts.symbols_eq_written` — both texts by the products
* `filter_parseableText` — the compact text is the parseable one without its signs of conjunction
-/

namespace PrimeForm

/-! ### Texts with a separator -/

section Separated

variable {sep : List Char} {empty c : Char}

/-- The texts of a list, with a separator between them. A list without texts is written as one
character. -/
def separated (empty : Char) (sep : List Char) (css : List (List Char)) : List Char :=
  if css = [] then [empty] else sep.intercalate css

@[simp] theorem separated_cons (cs : List Char) (css : List (List Char)) :
    separated empty sep (cs :: css) = sep.intercalate (cs :: css) :=
  if_neg (List.cons_ne_nil cs css)

theorem filter_intercalate (keep : Char → Bool) (sep : List Char) (css : List (List Char)) :
    (sep.intercalate css).filter keep =
      (sep.filter keep).intercalate (css.map (List.filter keep)) := by
  induction css with
  | nil => rfl
  | cons cs css ih =>
    cases css with
    | nil => rw [List.map_singleton, List.intercalate_singleton, List.intercalate_singleton]
    | cons ds css =>
      rw [List.intercalate_cons_cons, List.filter_append, List.filter_append, ih]
      simp only [List.map_cons, List.intercalate_cons_cons]

theorem nil_intercalate (css : List (List Char)) :
    ([] : List Char).intercalate css = css.flatten := by
  induction css with
  | nil => rfl
  | cons cs css ih =>
    cases css with
    | nil => rw [List.intercalate_singleton, List.flatten_singleton]
    | cons ds css => rw [List.intercalate_cons_cons, ih, List.append_nil, ← List.flatten_cons]

/-- What is not in the separator is as often in the text with separators as without. -/
theorem count_intercalate (hsep : c ∉ sep) (css : List (List Char)) :
    (sep.intercalate css).count c = css.flatten.count c := by
  induction css with
  | nil => rfl
  | cons cs css ih =>
    cases css with
    | nil => rw [List.intercalate_singleton, List.flatten_singleton]
    | cons ds css =>
      rw [List.intercalate_cons_cons, List.count_append, List.count_append, ih,
        List.count_eq_zero_of_not_mem hsep, Nat.add_zero, ← List.count_append, ← List.flatten_cons]

theorem filter_separated {keep : Char → Bool} (hempty : keep empty = true)
    (css : List (List Char)) :
    (separated empty sep css).filter keep =
      separated empty (sep.filter keep) (css.map (List.filter keep)) := by
  cases css with
  | nil => exact List.filter_cons_of_pos hempty
  | cons cs css => rw [separated_cons, filter_intercalate, List.map_cons, separated_cons]

theorem count_separated (hempty : c ≠ empty) (hsep : c ∉ sep) (css : List (List Char)) :
    (separated empty sep css).count c = css.flatten.count c := by
  cases css with
  | nil => exact List.count_eq_zero_of_not_mem (by simpa [separated] using hempty)
  | cons cs css => rw [separated_cons, count_intercalate hsep]

end Separated

namespace Formula

variable {op : Connective} {fs : List Formula}

/-- A chain whose links hold together more firmly than its connective is written without
parentheses. -/
theorem symbols_chain (b : Bool) (hfs : ∀ φ ∈ fs, op.precedence < φ.strength) :
    (chain op (.literal b) fs).symbols =
      separated (Digit.ofBool b) [op.symbol] (fs.map symbols) := by
  induction fs with
  | nil => rfl
  | cons φ fs ih =>
    obtain ⟨hφ, hrest⟩ := List.forall_mem_cons.mp hfs
    cases fs with
    | nil => rw [List.map_singleton, separated_cons, List.intercalate_singleton, chain]
    | cons ψ rest =>
      -- The right operand is the last link, or else a chain of the same connective.
      have hchain : op.precedence ≤ (chain op (.literal b) (ψ :: rest)).strength := by
        cases rest with
        | nil => exact Nat.le_of_lt (hrest ψ List.mem_cons_self)
        | cons χ rest => exact Nat.le_refl _
      rw [chain, join, symbols, ih hrest, decide_eq_false (Nat.not_le_of_lt hφ),
        decide_eq_false (Nat.not_lt_of_le hchain)]
      simp [enclose, List.intercalate_cons_cons]

end Formula

open SumOfProducts

/-! ### Products -/

namespace Product

variable {L : Product} {sign : List Char} {c : Char}

/-- The characters of a product, with a sign between its literals. A product without literals is the
constant `1`. -/
def written (sign : List Char) (L : Product) : List Char :=
  separated '1' sign (L.map literalSymbols)

theorem filter_written (h : ∀ l ∈ L, l.1 ≠ '&') :
    (L.written ['&']).filter (· ≠ '&') = L.written [] := by
  have hliterals : L.map (List.filter (· ≠ '&') ∘ literalSymbols) = L.map literalSymbols := by
    refine List.map_congr_left fun l hl => ?_
    obtain ⟨x, b⟩ := l
    have hx : x ≠ '&' := h _ hl
    cases b <;> simp [literalSymbols, hx]
  rw [written, filter_separated (by decide), List.map_map, hliterals]
  rfl

/-- A character that is no sign is in the text as often as it is the name of a literal. -/
theorem count_written (hsign : c ∉ sign) (hone : c ≠ '1') (hneg : c ≠ '!') :
    (L.written sign).count c = L.countP fun l => l.1 = c := by
  rw [written, count_separated hone hsign]
  induction L with
  | nil => rfl
  | cons l L ih =>
    obtain ⟨x, b⟩ := l
    rw [List.map_cons, List.flatten_cons, List.count_append, ih, List.countP_cons, Nat.add_comm]
    cases b <;> simp [literalSymbols, List.count_cons, hneg.symm]

end Product

namespace SumOfProducts

variable {names : List Char} {sum : SumOfProducts} {Ls : List Product} {sign : List Char}
  {c : Char}

/-- The characters of a disjunction of products, with a sign between two literals. Without products
it is the constant `0`. -/
def written (sign : List Char) (Ls : List Product) : List Char :=
  separated '0' ['|'] (Ls.map (Product.written sign))

/-- The products of a sum in the order they are written in. The constant `0` has no product, and the
constant `1` has the product without literals. -/
def products : SumOfProducts → List Product
  | constant b => if b then [[]] else []
  | implicants names ts => ts.reverse.map (literals names)

theorem filter_written (h : ∀ L ∈ Ls, ∀ l ∈ L, l.1 ≠ '&') :
    (written ['&'] Ls).filter (· ≠ '&') = written [] Ls := by
  have hproducts : Ls.map (List.filter (· ≠ '&') ∘ Product.written ['&']) =
      Ls.map (Product.written []) :=
    List.map_congr_left fun L hL => Product.filter_written (h L hL)
  rw [written, filter_separated (by decide), List.map_map, hproducts]
  rfl

theorem count_written (hsign : c ∉ sign) (hsigns : c ∉ ['0', '1', '!', '|']) :
    (written sign Ls).count c = Ls.flatten.countP fun l => l.1 = c := by
  simp only [List.mem_cons, List.not_mem_nil, or_false, not_or] at hsigns
  obtain ⟨hzero, hone, hneg, hbar⟩ := hsigns
  have hproducts : Ls.map (List.count c ∘ Product.written sign) =
      Ls.map (List.countP fun l => l.1 = c) :=
    List.map_congr_left fun L _ => Product.count_written hsign hone hneg
  rw [written, count_separated hzero (by simpa using hbar), List.count_flatten,
    List.countP_flatten, List.map_map, hproducts]

/-! ### The texts of a sum -/

theorem symbols_literalFormula (l : Char × Bool) :
    (literalFormula l).symbols = literalSymbols l := by
  obtain ⟨x, b⟩ := l
  cases b <;> rfl

theorem symbols_productFormula (names : List Char) (t : Term) :
    (productFormula names t).symbols = Product.written ['&'] (literals names t) := by
  have hliterals : Formula.symbols ∘ literalFormula = literalSymbols :=
    funext symbols_literalFormula
  rw [productFormula, Formula.symbols_chain true, List.map_map, hliterals]
  · rfl
  · intro φ hφ
    obtain ⟨l, -, rfl⟩ := List.mem_map.mp hφ
    exact three_le_strength_literalFormula l

/-- The parseable text has the sign of conjunction between two literals. -/
theorem symbols_toFormula (sum : SumOfProducts) :
    sum.toFormula.symbols = written ['&'] sum.products := by
  cases sum with
  | constant b => cases b <;> rfl
  | implicants names ts =>
    have hproducts : Formula.symbols ∘ productFormula names =
        Product.written ['&'] ∘ literals names :=
      funext (symbols_productFormula names)
    rw [toFormula, Formula.symbols_chain false, List.map_map, hproducts, products, written,
      List.map_map]
    · rfl
    · intro φ hφ
      obtain ⟨t, -, rfl⟩ := List.mem_map.mp hφ
      exact two_le_strength_productFormula names t

theorem productSymbols_eq_written {t : Term} (hwidth : t.width = names.length) :
    productSymbols names t = Product.written [] (literals names t) := by
  rw [productSymbols, Product.written, separated, nil_intercalate, ← List.flatMap_def]
  exact if_congr (by rw [List.map_eq_nil_iff, literals_eq_nil_iff hwidth]) rfl rfl

/-- The compact text has nothing between two literals. -/
theorem symbols_eq_written (hfits : sum.Fits names) (hne : ∀ names', sum ≠ .implicants names' []) :
    sum.symbols = written [] sum.products := by
  cases sum with
  | constant b => cases b <;> rfl
  | implicants names' ts =>
    obtain ⟨rfl, hwidth⟩ := hfits
    have hts : ts ≠ [] := fun hnil => hne _ (by rw [hnil])
    have hproduct : ∀ t ∈ ts.reverse, productSymbols names' t =
        Product.written [] (literals names' t) :=
      fun t ht => productSymbols_eq_written (hwidth t (List.mem_reverse.mp ht))
    rw [symbols, products, written, separated, if_neg (by simpa using hts), List.map_map,
      List.map_congr_left hproduct]
    rfl

/-- A sum that is built has terms, unless it is a constant. -/
theorem ne_implicants_nil
    (hsum : (∃ ms, simplify names ms = .ok sum) ∨ ∃ ts, ofTerms names ts = .ok sum)
    (names' : List Char) : sum ≠ .implicants names' [] := by
  rintro rfl
  rcases hsum with ⟨ms, hms⟩ | ⟨ts, hts⟩
  · obtain ⟨ts, hts, hne, -⟩ := (simplify_eq_ok_iff.mp hms).2.exists_eq_implicants (by simp)
    injection hts with _ hnil
    exact hne hnil.symm
  · obtain ⟨-, hts⟩ := ofTerms_eq_ok_iff.mp hts
    split at hts
    · cases hts
    · rename_i hne
      injection hts with _ hnil
      refine hne (List.isEmpty_iff.mpr (List.eq_nil_iff_forall_not_mem.mpr fun t ht => ?_))
      rw [← mem_ascending, ← hnil] at ht
      cases ht

theorem name_mem_of_mem_products (hfits : sum.Fits names) {L : Product} (hL : L ∈ sum.products)
    {l : Char × Bool} (hl : l ∈ L) : l.1 ∈ names := by
  cases sum with
  | constant b => cases b <;> simp_all [products]
  | implicants names' ts =>
    obtain ⟨rfl, -⟩ := hfits
    obtain ⟨t, -, rfl⟩ := List.mem_map.mp hL
    exact mem_names_of_mem_literals hl

end SumOfProducts

/-- Over names other than the sign of conjunction, the compact text of a sum is its parseable text
with all these signs deleted. Both list the products of the sum in one order, and the parseable text
has as many parentheses as there are literals named by a parenthesis. -/
theorem filter_parseableText {names : List Char} {sum : SumOfProducts} (hnames : '&' ∉ names)
    (hsum : (∃ ms, simplify names ms = .ok sum) ∨ ∃ ts, ofTerms names ts = .ok sum) :
    sum.parseableText.toList.filter (· ≠ '&') = sum.text.toList ∧
    (∀ c, c = '(' ∨ c = ')' →
      sum.parseableText.toList.count c = sum.products.flatten.countP fun l => l.1 = c) ∧
    sum.text.toList = written [] sum.products ∧
    sum.parseableText.toList = written ['&'] sum.products := by
  have hfits : sum.Fits names := by
    rcases hsum with ⟨ms, hms⟩ | ⟨ts, hts⟩
    · exact (simplify_eq_ok_iff.mp hms).2.fits
    · exact fits_of_ofTerms hts
  have htext : sum.text.toList = written [] sum.products := by
    rw [toList_text, symbols_eq_written hfits (ne_implicants_nil hsum)]
  have hparseable : sum.parseableText.toList = written ['&'] sum.products := by
    rw [parseableText, Formula.toList_text, symbols_toFormula]
  refine ⟨?_, fun c hc => ?_, htext, hparseable⟩
  · rw [hparseable, htext]
    apply filter_written
    intro L hL l hl heq
    exact hnames (heq ▸ name_mem_of_mem_products hfits hL hl)
  · rw [hparseable]
    rcases hc with rfl | rfl <;> exact count_written (by decide) (by decide)

/-- A sum with a term that leaves every position open, over a name that is a parenthesis. -/
theorem filter_parseableText_parenthesis :
    ∃ sum, ofTerms ['(', 'b'] [⟨[some true, some false]⟩, ⟨[none, none]⟩] = .ok sum ∧
      sum.parseableText = "(&!b|1" ∧ sum.text = "(!b|1" ∧
      sum.parseableText.toList.filter (· ≠ '&') = sum.text.toList := by
  have hsum : ofTerms ['(', 'b'] [⟨[some true, some false]⟩, ⟨[none, none]⟩] =
      .ok (.implicants ['(', 'b'] [⟨[none, none]⟩, ⟨[some true, some false]⟩]) := by
    rfl
  exact ⟨_, hsum, rfl, rfl, (filter_parseableText (by decide) (.inr ⟨_, hsum⟩)).1⟩

end PrimeForm
