import PrimeForm.Proofs.Analysis
import PrimeForm.Proofs.CompactText

/-!
# The simplified form is canonical

The prime implicants of a formula, listed by their literals, depend on its values only, and so
does the order they are listed in. Hence equivalent formulas have the same simplified text, even
if they mention different variables. The text in turn determines the values, so no other formulas
share it.

## Main definitions

* `IsCanonical` — a sum that lists the primes of a formula, or is its constant value

## Main results

* `Simplified.isCanonical` — simplification leads to the canonical form
* `IsCanonical.symbols_eq` — equivalent formulas have the same canonical form, as text
* `equivalent_iff_text_eq` — two texts describe equivalent formulas exactly when their simplified
  forms have the same text
-/

namespace PrimeForm

open Std SumOfProducts

variable {φ ψ : Formula} {names : List Char} {ms : List Minterm} {sum sum' : SumOfProducts}

/-- The canonical form of a formula, described without the variables that it has columns for. -/
inductive IsCanonical (φ : Formula) : SumOfProducts → Prop where
  /-- A formula that has the same value everywhere is written as this constant. -/
  | constant {b : Bool} (h : ∀ ν, φ.value ν = b) : IsCanonical φ (.constant b)
  /-- Any other formula is written as all its prime products in ascending order. -/
  | primes {names : List Char} {ts : List Term} (hvaries : ∀ b, ∃ ν, φ.value ν = b)
    (hwidth : ∀ t ∈ ts, t.width = names.length)
    (hsorted : (ts.map (literals names)).Pairwise fun L L' => Product.compare L L' = .lt)
    (hmem : ∀ L : Product, L ∈ ts.map (literals names) ↔ L.Ascending ∧ L.IsPrime φ) :
    IsCanonical φ (.implicants names ts)

/-- Over ascending names that cover a formula, the simplified form of the rows in which the
formula is true is its canonical form. -/
theorem Simplified.isCanonical (h : Simplified names ms sum) (hlen : names.length < 64)
    (hnames : names.Pairwise fun x y => compare x y = .lt) (hcover : ∀ x ∈ φ.names, x ∈ names)
    (hpoints : ∀ ν, names.map ν ∈ truePoints names.length ms ↔ φ.value ν = true) :
    IsCanonical φ sum := by
  have hnodup : names.Nodup := nodup_of_pairwise hnames
  cases h with
  | empty hms =>
    apply IsCanonical.constant
    intro ν
    apply Bool.eq_false_iff.mpr
    intro htrue
    obtain ⟨m, hm, -⟩ := (hpoints ν).mpr htrue
    rw [hms] at hm
    cases hm
  | full _ _ hfull =>
    exact .constant fun ν => (hpoints ν).mp (hfull _ (List.length_map ν))
  | @primes hms hnot ts hsorted hmem =>
    have hwidth : ∀ t ∈ ts, t.width = names.length := fun t ht => ((hmem t).mp ht).1
    refine .primes ?_ hwidth ?_ ?_
    · -- Some row is given and some row is missing, so both values occur.
      intro b
      cases b with
      | true =>
        obtain ⟨m, hm⟩ := List.exists_mem_of_ne_nil ms hms
        obtain ⟨ν, hν⟩ := exists_map_eq hnodup (length_indexBits m.toNat names.length)
        exact ⟨ν, (hpoints ν).mp (hν ▸ ⟨m, hm, rfl⟩)⟩
      | false =>
        have hmissing : ¬ IsFull names.length ms := fun hfull => hnot ⟨hlen, hfull⟩
        simp only [IsFull, not_forall] at hmissing
        obtain ⟨v, hv, hout⟩ := hmissing
        obtain ⟨ν, rfl⟩ := exists_map_eq hnodup hv
        exact ⟨ν, Bool.eq_false_iff.mpr fun htrue => hout ((hpoints ν).mpr htrue)⟩
    · -- The order of the terms is that of their literals.
      apply List.pairwise_map.mpr
      refine hsorted.imp_of_mem fun {s t} hs ht hlt => ?_
      rwa [← Term.compare_eq_compare_literals hnames (hwidth s hs) (hwidth t ht)]
    · intro L
      rw [List.mem_map]
      constructor
      · intro hL
        obtain ⟨t, ht, rfl⟩ := hL
        obtain ⟨hwidth, hprime⟩ := (hmem t).mp ht
        have hliterals := (Term.isPrimeImplicant_iff hnodup hpoints hwidth).mp hprime
        exact ⟨ascending_literals hnames, hliterals⟩
      · intro hL
        -- A prime product mentions variables of the formula only, and the names cover these.
        obtain ⟨hasc, hprime⟩ := hL
        have hover : ∀ l ∈ L, l.1 ∈ names := fun l hl => hcover l.1 (hprime.mem_names hasc hl)
        obtain ⟨t, hwidth, rfl⟩ := hasc.exists_literals_eq hnames hover
        have hpoint := (Term.isPrimeImplicant_iff hnodup hpoints hwidth).mpr hprime
        exact ⟨t, (hmem t).mpr ⟨hwidth, hpoint⟩, rfl⟩

/-- Sums of terms that are not all open are written by their literals. -/
theorem symbols_implicants {ts : List Term} (hwidth : ∀ t ∈ ts, t.width = names.length)
    (hne : [] ∉ ts.map (literals names)) :
    (implicants names ts).symbols =
      ['|'].intercalate ((ts.map (literals names)).reverse.map Product.symbols) := by
  have hproduct : ∀ t ∈ ts, productSymbols names t = Product.symbols (literals names t) := by
    intro t ht
    refine if_neg fun hopen => hne ?_
    exact List.mem_map.mpr ⟨t, ht, (literals_eq_nil_iff (hwidth t ht)).mpr hopen⟩
  rw [symbols, List.map_reverse, List.map_reverse, List.map_map, List.map_congr_left hproduct]
  rfl

namespace IsCanonical

theorem false_of_varies {b : Bool} (h : ∀ ν, φ.value ν = b) (hvaries : ∀ b, ∃ ν, φ.value ν = b) :
    False := by
  obtain ⟨ν, hν⟩ := hvaries (!b)
  rw [h ν] at hν
  cases b <;> cases hν

/-- Only the constant `1` is implied by the product of no literals. -/
theorem nil_not_mem_primes {Ls : List Product} (hvaries : ∀ b, ∃ ν, φ.value ν = b)
    (hmem : ∀ L : Product, L ∈ Ls ↔ L.Ascending ∧ L.IsPrime φ) : [] ∉ Ls := by
  intro hnil
  have himp : Product.Implies [] φ := ((hmem []).mp hnil).2.1
  exact false_of_varies (fun ν => himp ν fun l hl => absurd hl List.not_mem_nil) hvaries

/-- Formulas with the same values have the same canonical form, as text. -/
theorem symbols_eq (h : IsCanonical φ sum) (h' : IsCanonical ψ sum')
    (heq : ∀ ν, φ.value ν = ψ.value ν) : sum.symbols = sum'.symbols := by
  have hprime (L : Product) : L.IsPrime φ ↔ L.IsPrime ψ := by
    simp only [Product.IsPrime, Product.Implies, heq]
  cases h with
  | constant hb =>
    cases h' with
    | constant hc => rw [← hb fun _ => false, ← hc fun _ => false, heq]
    | primes hvaries => exact (false_of_varies (fun ν => heq ν ▸ hb ν) hvaries).elim
  | @primes names ts hvaries hwidth hsorted hmem =>
    cases h' with
    | constant hc => exact (false_of_varies (fun ν => (heq ν).trans (hc ν)) hvaries).elim
    | @primes names' ts' hvaries' hwidth' hsorted' hmem' =>
      -- Both lists ascend strictly and consist of the same primes.
      have hsame : ts.map (literals names) = ts'.map (literals names') := by
        apply eq_of_pairwise_of_mem_iff hsorted hsorted'
        intro L
        rw [hmem, hmem', hprime]
      rw [symbols_implicants hwidth (nil_not_mem_primes hvaries hmem),
        symbols_implicants hwidth' (nil_not_mem_primes hvaries' hmem'), hsame]

end IsCanonical

section Analyze

variable {options options' : Analysis.Options} {input input' : String} {a a' : Analysis}

/-- The simplified form of an analysis is canonical. -/
theorem isCanonical_of_analyze (h : analyze options input = .ok a)
    (hsum : Simplified a.names a.table.minterms sum) : IsCanonical a.formula sum := by
  have hlen : a.names.length < 64 := Nat.lt_of_le_of_lt (length_names_of_analyze h) (by decide)
  exact hsum.isCanonical hlen
    (Formula.pairwise_compare_of_sortedNames (sortedNames_of_analyze h))
    (fun x => (mem_names_of_analyze h).mpr) (map_mem_truePoints_of_analyze h)

/-- Two texts are read as equivalent formulas exactly when their simplified forms have the same
text, whether or not the formulas mention the same variables. -/
theorem equivalent_iff_text_eq (hsimplify : options.simplify = true)
    (hsimplify' : options'.simplify = true) (h : analyze options input = .ok a)
    (h' : analyze options' input' = .ok a') :
    Formula.parse (Analysis.sourceText options input) = .ok a.formula ∧
    a.formula.sortedNames = .ok a.names ∧
    Formula.parse (Analysis.sourceText options' input') = .ok a'.formula ∧
    a'.formula.sortedNames = .ok a'.names ∧
    ∃ sum sum', a.simplified = some sum ∧ a'.simplified = some sum' ∧
      (a.formula.equivalent a'.formula = true ↔ sum.text = sum'.text) := by
  obtain ⟨sum, hsome, hsum⟩ := simplified_of_analyze h hsimplify
  obtain ⟨sum', hsome', hsum'⟩ := simplified_of_analyze h' hsimplify'
  refine ⟨parse_of_analyze h, sortedNames_of_analyze h, parse_of_analyze h',
    sortedNames_of_analyze h', sum, sum', hsome, hsome', ?_⟩
  rw [Formula.equivalent_iff]
  constructor
  · intro heq
    have hsymbols :=
      (isCanonical_of_analyze h hsum).symbols_eq (isCanonical_of_analyze h' hsum') heq
    rw [text, text, hsymbols]
  · intro htext ν
    -- The text determines the function, which is that of the formula.
    rw [← value_toFormula_of_analyze h hsum, ← value_toFormula_of_analyze h' hsum']
    exact value_toFormula_congr hsum.fits (fun x => isLower_of_analyze h) hsum'.fits
      (fun x => isLower_of_analyze h') htext

end Analyze

/-- A variable without influence on the value leaves no trace in the text. -/
theorem equivalent_iff_text_eq_idle :
    ∃ a a' sum sum', analyze {} "c&(b|!b)" = .ok a ∧ analyze {} "c" = .ok a' ∧
      a.simplified = some sum ∧ a'.simplified = some sum' ∧
      a.formula.equivalent a'.formula = true ∧ sum.text = sum'.text := by
  have hparse : Formula.parse "c&(b|!b)" = .ok (.binary .and (.var 'c' 0)
      (.binary .or (.var 'b' 3) (.neg (.var 'b' 6)) 4) 1) := by rfl
  have hnames : (Formula.binary .and (.var 'c' 0)
      (.binary .or (.var 'b' 3) (.neg (.var 'b' 6)) 4) 1).sortedNames = .ok ['b', 'c'] :=
    Formula.sortedNames_eq_ok_iff_perm.mpr ⟨List.all_eq_true.mp rfl, by decide, by decide⟩
  have hparse' : Formula.parse "c" = .ok (.var 'c' 0) := by rfl
  have hnames' : (Formula.var 'c' 0).sortedNames = .ok ['c'] :=
    Formula.sortedNames_eq_ok_iff_perm.mpr ⟨List.all_eq_true.mp rfl, by decide, by decide⟩
  obtain ⟨_, hok⟩ := exists_analyze_eq_ok hparse hnames
  obtain ⟨_, hok'⟩ := exists_analyze_eq_ok hparse' hnames'
  have hrun := hok {} "c&(b|!b)" rfl
  have hrun' := hok' {} "c" rfl
  obtain ⟨-, -, -, -, sum, sum', hsum, hsum', hiff⟩ := equivalent_iff_text_eq rfl rfl hrun hrun'
  -- Whatever the value of `b`, the disjunction is true.
  have hvalue (ν : Char → Bool) : (ν 'c' && (ν 'b' || !ν 'b')) = ν 'c' := by
    rw [Bool.or_not_self, Bool.and_true]
  have htext := hiff.mp (Formula.equivalent_iff.mpr hvalue)
  exact ⟨_, _, sum, sum', hrun, hrun', hsum, hsum', hiff.mpr htext, htext⟩

end PrimeForm
