import PrimeForm.Proofs.Formula.Variables
import PrimeForm.Proofs.Grammar.Printing
import PrimeForm.Proofs.Parity
import PrimeForm.Proofs.Product

/-!
# The parseable text of a sum

The parseable text of a sum is the plain text of the formula that the sum stands for. It is read as
this formula as long as the formula nests within the limit of the reader. In a chain every operand
lies one level deeper than the one before it, so the product written in place `i` leaves `i` levels
less to its literals, of which each again takes one. A sum of few products is always read back, and
a sum of very many products never is.

## Main definitions

* `SumOfProducts.NestsWithin` — the products of a sum leave enough levels to each other

## Main results

* `Formula.levels_chain_and`, `Formula.levels_chain_or_le_iff` — how deeply chains nest
* `SumOfProducts.levels_toFormula_le_iff` — how deeply the formula of a sum nests
* `parse_parseableText_iff` — when the text of a sum is read as its formula
* `not_parse_parseableText_parity` — parity is not
-/

namespace PrimeForm

namespace Formula

variable {op : Connective} {unit : Formula} {fs : List Formula} {n : Nat}

/-! ### Chains -/

/-- A chain has no positions and no negations of literals if its links have none. -/
theorem unplaced_foldLiterals_chain (hunit : unit.foldLiterals.unplaced = unit)
    (hfs : ∀ φ ∈ fs, φ.foldLiterals.unplaced = φ) :
    (chain op unit fs).foldLiterals.unplaced = chain op unit fs := by
  induction fs with
  | nil => exact hunit
  | cons φ fs ih =>
    cases fs with
    | nil => exact hfs φ List.mem_cons_self
    | cons ψ rest =>
      have hrest := ih fun χ hχ => hfs χ (List.mem_cons_of_mem φ hχ)
      rw [chain, join, foldLiterals, unplaced, hfs φ List.mem_cons_self, hrest]

/-- A conjunction of letters, digits and their negations takes one level for each. -/
theorem levels_chain_and (hne : fs ≠ [])
    (hfs : ∀ φ ∈ fs, 3 ≤ φ.strength ∧ ∀ h : φ.Lettered, (φ.derivation h .factor).levels = 0)
    (h : (chain .and unit fs).Lettered) :
    ((chain .and unit fs).derivation h .conjunction).levels = fs.length := by
  induction fs with
  | nil => exact absurd rfl hne
  | cons φ fs ih =>
    obtain ⟨hstrength, hlevels⟩ := hfs φ List.mem_cons_self
    cases fs with
    | nil =>
      have hfactor := levels_derivation_eq (k := .conjunction) h (by decide) hstrength
      exact hfactor.trans (congrArg _ (hlevels h))
    | cons ψ rest =>
      have hrest := ih (List.cons_ne_nil ψ rest) (fun χ hχ => hfs χ (List.mem_cons_of_mem φ hχ))
        (Lettered.right h)
      calc ((chain .and unit (φ :: ψ :: rest)).derivation h .conjunction).levels
        _ = max (φ.derivation (Lettered.left h) .factor).levels
              ((chain .and unit (ψ :: rest)).derivation (Lettered.right h)
                .conjunction).levels + 1 := rfl
        _ = (ψ :: rest).length + 1 := by rw [hrest, hlevels, Nat.zero_max]

/-- Every link of a disjunction lies one level deeper than the one before it. -/
theorem levels_chain_or_le_iff {k : Nat} (hne : fs ≠ []) (hfs : ∀ φ ∈ fs, 2 ≤ φ.strength)
    (h : (chain .or unit fs).Lettered) :
    k + ((chain .or unit fs).derivation h .expression).levels ≤ n ↔
      ∀ i φ, fs[i]? = some φ → ∀ h : φ.Lettered,
        k + i + (φ.derivation h .expression).levels ≤ n := by
  induction fs generalizing k with
  | nil => exact absurd rfl hne
  | cons φ fs ih =>
    cases fs with
    | nil =>
      refine ⟨fun hle i χ hi hχ => ?_, fun hall => hall 0 φ rfl h⟩
      cases i with
      | zero => cases hi; exact hle
      | succ i => cases hi
    | cons ψ rest =>
      have hφ : (φ.derivation (Lettered.left h) .expression).levels =
          (φ.derivation (Lettered.left h) .conjunction).levels + 1 :=
        levels_derivation_eq (Lettered.left h) (by decide) (hfs φ List.mem_cons_self)
      have hrest := ih (k := k + 1) (List.cons_ne_nil ψ rest)
        (fun χ hχ => hfs χ (List.mem_cons_of_mem φ hχ)) (Lettered.right h)
      have hlevels : ((chain .or unit (φ :: ψ :: rest)).derivation h .expression).levels =
          max (φ.derivation (Lettered.left h) .conjunction).levels
            ((chain .or unit (ψ :: rest)).derivation (Lettered.right h) .expression).levels + 1 :=
        rfl
      rw [hlevels]
      constructor
      · intro hle i χ hi hχ
        cases i with
        | zero =>
          cases hi
          omega
        | succ i =>
          have hlater := hrest.mp (by omega) i χ hi hχ
          omega
      · intro hall
        have hfirst := hall 0 φ rfl (Lettered.left h)
        have hlater := hrest.mpr fun i χ hi hχ => by
          have hχ := hall (i + 1) χ hi hχ
          omega
        omega

end Formula

namespace SumOfProducts

variable {names : List Char} {sum : SumOfProducts} {t : Term} {n : Nat}

/-! ### The formula of a product -/

theorem length_literals (h : t.width = names.length) : (literals names t).length = t.fixed := by
  obtain ⟨bits⟩ := t
  induction names generalizing bits with
  | nil =>
    obtain rfl : bits = [] := List.length_eq_zero_iff.mp h
    rfl
  | cons x names ih =>
    cases bits with
    | nil => cases h
    | cons bit bits =>
      have hrest : (literals names ⟨bits⟩).length = bits.countP Option.isSome :=
        ih bits (Nat.succ.inj h)
      cases bit with
      | none => rw [literals_cons_none, hrest]; rfl
      | some b =>
        rw [literals_cons_some, List.length_cons, hrest, Term.fixed, List.countP_cons_of_pos rfl]

/-- A literal needs no parentheses anywhere. -/
theorem three_le_strength_literalFormula (l : Char × Bool) : 3 ≤ (literalFormula l).strength := by
  obtain ⟨x, b⟩ := l
  cases b <;> exact Nat.le_refl 3

theorem levels_literalFormula (l : Char × Bool) (h : (literalFormula l).Lettered) :
    ((literalFormula l).derivation h .factor).levels = 0 := by
  obtain ⟨x, b⟩ := l
  cases b <;> rfl

theorem unplaced_foldLiterals_literalFormula (l : Char × Bool) :
    (literalFormula l).foldLiterals.unplaced = literalFormula l := by
  obtain ⟨x, b⟩ := l
  cases b <;> rfl

/-- A product needs no parentheses beside the sign of disjunction. -/
theorem two_le_strength_productFormula (names : List Char) (t : Term) :
    2 ≤ (productFormula names t).strength := by
  rw [productFormula]
  cases literals names t with
  | nil => decide
  | cons l L =>
    cases L with
    | nil => exact Nat.le_trans (by decide) (three_le_strength_literalFormula l)
    | cons l' L => exact Nat.le_refl 2

/-- A product takes one level for each of its literals, and one if it has none. -/
theorem levels_productFormula (hwidth : t.width = names.length)
    (h : (productFormula names t).Lettered) :
    ((productFormula names t).derivation h .conjunction).levels = max 1 t.fixed := by
  rw [← length_literals hwidth]
  unfold productFormula at h ⊢
  generalize literals names t = L at h ⊢
  cases L with
  | nil => rfl
  | cons l L =>
    have hlinks : ∀ φ ∈ (l :: L).map literalFormula, 3 ≤ φ.strength ∧
        ∀ h : φ.Lettered, (φ.derivation h .factor).levels = 0 := by
      intro φ hφ
      obtain ⟨l', -, rfl⟩ := List.mem_map.mp hφ
      exact ⟨three_le_strength_literalFormula l', levels_literalFormula l'⟩
    rw [Formula.levels_chain_and (by simp) hlinks, List.length_map, List.length_cons]
    omega

/-! ### The formula of a sum -/

/-- Behind the products written before it, every product of the sum finds enough levels: one to
open it, and one for each of its literals, or for the digit in their place. -/
def NestsWithin (n : Nat) (sum : SumOfProducts) : Prop :=
  ∀ i t, sum.terms.reverse[i]? = some t → i + 1 + max 1 t.fixed ≤ n

/-- The formula of a sum has no positions and no negations of literals. -/
theorem unplaced_foldLiterals_toFormula (sum : SumOfProducts) :
    sum.toFormula.foldLiterals.unplaced = sum.toFormula := by
  cases sum with
  | constant b => rfl
  | implicants names ts =>
    refine Formula.unplaced_foldLiterals_chain rfl fun φ hφ => ?_
    obtain ⟨t, -, rfl⟩ := List.mem_map.mp hφ
    refine Formula.unplaced_foldLiterals_chain rfl fun φ hφ => ?_
    obtain ⟨l, -, rfl⟩ := List.mem_map.mp hφ
    exact unplaced_foldLiterals_literalFormula l

theorem width_of_mem_terms (hfits : sum.Fits names) (ht : t ∈ sum.terms) :
    t.width = names.length := by
  cases sum with
  | constant b => cases ht
  | implicants names' ts => exact hfits.2 t ht

/-- With few products there are levels enough, whatever the products are. -/
theorem nestsWithin_of_length_add_le (hfits : sum.Fits names)
    (h : sum.terms.length + max 1 names.length ≤ n) : sum.NestsWithin n := by
  intro i t hi
  have hlt : i < sum.terms.reverse.length := (List.getElem?_eq_some_iff.mp hi).1
  have hwidth := width_of_mem_terms hfits (List.mem_reverse.mp (List.mem_of_getElem? hi))
  have hfixed : t.fixed ≤ t.width := List.countP_le_length
  rw [List.length_reverse] at hlt
  omega

/-- The last product needs a level of its own behind all others. -/
theorem NestsWithin.length_lt (h : sum.NestsWithin n) (hn : 0 < n) : sum.terms.length < n := by
  by_contra hlong
  have hlast : sum.terms.length - 1 < sum.terms.reverse.length := by
    rw [List.length_reverse]
    omega
  have hle := h _ _ (List.getElem?_eq_getElem hlast)
  omega

section Letters

variable (hnames : ∀ x ∈ names, x.isAlpha = true)
include hnames

theorem lettered_productFormula (t : Term) : (productFormula names t).Lettered :=
  Formula.lettered_iff.mpr fun x hx => hnames x (mem_names_of_productFormula hx)

theorem lettered_toFormula (hfits : sum.Fits names) : sum.toFormula.Lettered :=
  Formula.lettered_iff.mpr fun x hx => hnames x (mem_names_of_toFormula hfits hx)

/-- The formula of a sum is within a limit when the products of the sum are. -/
theorem levels_toFormula_le_iff (hfits : sum.Fits names) (hn : 2 ≤ n)
    (h : sum.toFormula.Lettered) :
    (sum.toFormula.derivation h .expression).levels ≤ n ↔ sum.NestsWithin n := by
  cases sum with
  | constant b => exact iff_of_true hn fun i t hi => by cases hi
  | implicants names' ts =>
    obtain ⟨rfl, hwidth⟩ := hfits
    by_cases hts : ts = []
    · subst hts
      exact iff_of_true hn fun i t hi => by cases hi
    have hlevels (t : Term) (ht : t ∈ ts) (h : (productFormula names' t).Lettered) :
        ((productFormula names' t).derivation h .expression).levels = max 1 t.fixed + 1 := by
      have hconjunction := Formula.levels_derivation_eq (k := .expression) h (by decide)
        (two_le_strength_productFormula names' t)
      exact hconjunction.trans (congrArg (· + 1) (levels_productFormula (hwidth t ht) h))
    have hstrength : ∀ φ ∈ ts.reverse.map (productFormula names'), 2 ≤ φ.strength := by
      intro φ hφ
      obtain ⟨t, -, rfl⟩ := List.mem_map.mp hφ
      exact two_le_strength_productFormula names' t
    have hchain := Formula.levels_chain_or_le_iff (k := 0) (n := n) (by simpa) hstrength h
    simp only [Nat.zero_add] at hchain
    rw [NestsWithin, terms]
    refine hchain.trans ⟨fun hall i t hi => ?_, fun hall i φ hlink hφ => ?_⟩
    · have ht := List.mem_reverse.mp (List.mem_of_getElem? hi)
      have hle := hall i _ (by rw [List.getElem?_map, hi]; rfl) (lettered_productFormula hnames t)
      rw [hlevels t ht] at hle
      omega
    · rw [List.getElem?_map] at hlink
      obtain ⟨t, hi, rfl⟩ := Option.map_eq_some_iff.mp hlink
      have ht := List.mem_reverse.mp (List.mem_of_getElem? hi)
      have hle := hall i t hi
      rw [hlevels t ht hφ]
      omega

end Letters

end SumOfProducts

/-! ### Reading the text of a sum -/

section Reading

open SumOfProducts

variable {names : List Char} {sum : SumOfProducts}

theorem isAlpha_of_isLower {x : Char} (h : x.isLower = true) : x.isAlpha = true :=
  Bool.or_eq_true_iff.mpr (.inr h)

/-- A sum within the limit is read back as its formula. -/
theorem parse_parseableText_of_nestsWithin (hfits : sum.Fits names)
    (hletters : ∀ x ∈ names, x.isAlpha = true) (hnests : sum.NestsWithin maxNesting) :
    ∃ ψ, Formula.parse sum.parseableText = .ok ψ ∧ ψ.unplaced = sum.toFormula := by
  have h := lettered_toFormula hletters hfits
  have hlevels := (levels_toFormula_le_iff hletters hfits (by decide) h).mpr hnests
  obtain ⟨ψ, hψ, htree⟩ := Formula.parse_text_of_levels_le h hlevels
  exact ⟨ψ, hψ, htree.trans sum.unplaced_foldLiterals_toFormula⟩

/-- A sum beyond the limit is refused for its nesting. -/
theorem parse_parseableText_of_not_nestsWithin (hfits : sum.Fits names)
    (hletters : ∀ x ∈ names, x.isAlpha = true) (hnot : ¬ sum.NestsWithin maxNesting) :
    ∃ q, Formula.parse sum.parseableText = .error ⟨⟨q, .tooDeep⟩, sum.parseableText⟩ := by
  have h := lettered_toFormula hletters hfits
  have hlevels := mt (levels_toFormula_le_iff hletters hfits (by decide) h).mp hnot
  exact Formula.parse_text_of_lt_levels h (Nat.lt_of_not_le hlevels)

/-- Over different lowercase letters, the parseable text of a sum is read as the formula of the sum
exactly when the sum nests within the limit; it is refused as nesting too deeply otherwise. A sum of
few products always is within the limit, and a sum of as many products as there are levels never
is. -/
theorem parse_parseableText_iff (hnodup : names.Nodup) (hlower : ∀ x ∈ names, x.isLower = true)
    (hsum : (∃ ms, simplify names ms = .ok sum) ∨ ∃ ts, ofTerms names ts = .ok sum) :
    ((∃ ψ, Formula.parse sum.parseableText = .ok ψ ∧ ψ.unplaced = sum.toFormula) ↔
      sum.NestsWithin maxNesting) ∧
    (¬ sum.NestsWithin maxNesting →
      ∃ q, Formula.parse sum.parseableText = .error ⟨⟨q, .tooDeep⟩, sum.parseableText⟩) ∧
    (sum.terms.length + maxVariables ≤ maxNesting → sum.NestsWithin maxNesting) ∧
    (maxNesting ≤ sum.terms.length → ¬ sum.NestsWithin maxNesting) := by
  have hfits : sum.Fits names := by
    rcases hsum with ⟨ms, hms⟩ | ⟨ts, hts⟩
    · exact (simplify_eq_ok_iff.mp hms).2.fits
    · exact fits_of_ofTerms hts
  have hletters : ∀ x ∈ names, x.isAlpha = true := fun x hx => isAlpha_of_isLower (hlower x hx)
  have hdeep := parse_parseableText_of_not_nestsWithin hfits hletters
  refine ⟨⟨fun ⟨ψ, hψ, _⟩ => ?_, parse_parseableText_of_nestsWithin hfits hletters⟩, hdeep,
    fun hfew => ?_, fun hmany hnests => ?_⟩
  · by_contra hnot
    obtain ⟨q, hq⟩ := hdeep hnot
    rw [hψ] at hq
    cases hq
  · apply nestsWithin_of_length_add_le hfits
    have hlength := length_le_maxVariables hnodup hlower
    have hvariables : 1 ≤ maxVariables := by decide
    omega
  · exact Nat.not_lt_of_le hmany (hnests.length_lt (by decide))

/-- The sum of both products of two variables that differ is read back. -/
theorem parse_parseableText_iff_two_products :
    ∃ sum ψ, ofTerms ['a', 'b'] [⟨[some true, some false]⟩, ⟨[some false, some true]⟩] = .ok sum ∧
      Formula.parse sum.parseableText = .ok ψ ∧ ψ.unplaced = sum.toFormula := by
  have hsum : ofTerms ['a', 'b'] [⟨[some true, some false]⟩, ⟨[some false, some true]⟩] =
      .ok (.implicants ['a', 'b'] [⟨[some false, some true]⟩, ⟨[some true, some false]⟩]) := by
    rfl
  obtain ⟨hread, -, hfew, -⟩ :=
    parse_parseableText_iff (by decide) (List.all_eq_true.mp rfl) (.inr ⟨_, hsum⟩)
  obtain ⟨ψ, hψ, htree⟩ := hread.mpr (hfew (by decide))
  exact ⟨_, ψ, hsum, hψ, htree⟩

/-- The parity of ten variables has too many products to be read back. -/
theorem not_parse_parseableText_parity :
    ∃ sum, simplify "abcdefghij".toList (parityRows 9) = .ok sum ∧
      ∃ q, Formula.parse sum.parseableText = .error ⟨⟨q, .tooDeep⟩, sum.parseableText⟩ := by
  obtain ⟨sum, hsum, hlength⟩ :=
    exists_simplify_parityRows (by decide) (show "abcdefghij".toList.length = 9 + 1 by decide)
  refine ⟨sum, hsum, parse_parseableText_of_not_nestsWithin (simplify_eq_ok_iff.mp hsum).2.fits
    (List.all_eq_true.mp rfl) fun hnests => ?_⟩
  exact Nat.not_lt_of_le hlength (hnests.length_lt (by decide))

end Reading

end PrimeForm
