import PrimeForm.Analysis
import PrimeForm.Proofs.Formula.Equivalence
import PrimeForm.Proofs.Formula.Variables
import PrimeForm.Proofs.Simplification
import PrimeForm.Proofs.Tabulation

/-!
# From a formula to its simplified form

The stages of an analysis keep the function that the formula describes: the table lists its
values, the minterms are the rows in which it is true, and the simplified form is true in these
rows again, as a list of terms and as a formula.

## Main results

* `analyze_eq_ok_iff` — an analysis succeeds when each of its stages does
* `exists_analyze_eq_ok` — the stages behind the names succeed, whichever of them take place
* `value_toFormula_of_analyze` — the simplified form has the values of the formula
* `analyze_agrees` — formula, table and simplified form agree in every row
-/

namespace PrimeForm

variable {options : Analysis.Options} {text : String} {a : Analysis} {sum : SumOfProducts}

/-- An analysis succeeds when each of its stages does. -/
theorem analyze_eq_ok_iff :
    analyze options text = .ok a ↔
      a.source = Analysis.sourceText options text ∧
      Formula.parse a.source = .ok a.formula ∧
      a.formula.sortedNames = .ok a.names ∧
      Analysis.tableOf options a.formula a.names = .ok a.table ∧
      Analysis.simplifiedOf options a.names a.table.minterms = .ok a.simplified := by
  simp only [analyze, bind_eq_ok_iff, mapError_eq_ok_iff, pure, Except.pure, Except.ok.injEq]
  refine ⟨fun ⟨φ, hφ, names, hnames, table, htable, simplified, hsimplified, ha⟩ => ?_,
    fun ⟨hsource, hφ, hnames, htable, hsimplified⟩ => ?_⟩
  · subst ha
    exact ⟨rfl, hφ, hnames, htable, hsimplified⟩
  · rw [hsource] at hφ
    exact ⟨_, hφ, _, hnames, _, htable, _, hsimplified, by rw [← hsource]⟩

/-- The rows in which a formula is true are rows of its table. -/
theorem TruthTable.IsTableOf.inRange_minterms {φ : Formula} {names : List Char} {table : TruthTable}
    (h : table.IsTableOf φ names) : InRange names.length table.minterms := by
  intro m hm
  by_contra hlast
  have hnone := h.output?_eq_none m (Nat.le_of_not_lt hlast)
  rw [(h.mem_minterms m).mp hm] at hnone
  cases hnone

/-- The explicit text is kept exactly if the options ask for it. -/
theorem Analysis.tableOf_eq (options : Options) (φ : Formula) (names : List Char) :
    tableOf options φ names = TruthTable.enumerate options.explicit φ names := by
  rw [tableOf]
  split
  · rename_i htraced
    rw [htraced]
    rfl
  · rename_i htraced
    rw [Bool.eq_false_iff.mpr htraced]
    rfl

/-- A formula whose variables are listed has one simplified form, and every analysis keeps of this
and of the table what its options ask for. -/
theorem exists_analyze_eq_ok {source : String} {φ : Formula} {names : List Char}
    (hparse : Formula.parse source = .ok φ) (hnames : φ.sortedNames = .ok names) :
    ∃ sum, ∀ options text, Analysis.sourceText options text = source →
      analyze options text = .ok
        { source := source
          formula := φ
          names := names
          table := .ofValues options.explicit φ names
          simplified := if options.simplify then some sum else none } := by
  have hlen : names.length ≤ maxVariables := Formula.length_le_of_sortedNames hnames
  have hcover : ∀ x ∈ φ.names, x ∈ names := fun x => (Formula.mem_of_sortedNames hnames).mpr
  -- The explicit text of the table has no part in its minterms.
  have htable : (TruthTable.ofValues false φ names).IsTableOf φ names :=
    TruthTable.isTableOf_ofValues hlen hcover
  obtain ⟨sum, hsum⟩ := exists_simplify_eq_ok htable.inRange_minterms
  refine ⟨sum, fun options text hsource => analyze_eq_ok_iff.mpr
    ⟨hsource.symm, hparse, hnames, ?_, ?_⟩⟩
  · rw [Analysis.tableOf_eq]
    exact TruthTable.enumerate_eq_ok hlen hcover
  · rw [Analysis.simplifiedOf]
    split
    · exact map_eq_ok_iff.mpr ⟨sum, hsum, rfl⟩
    · rfl

section Stages

variable (h : analyze options text = .ok a)
include h

/-- The formula is what the text is read as. -/
theorem parse_of_analyze : Formula.parse (Analysis.sourceText options text) = .ok a.formula := by
  obtain ⟨hsource, hparse, -⟩ := analyze_eq_ok_iff.mp h
  rwa [← hsource]

/-- The names are the variables of the formula. -/
theorem sortedNames_of_analyze : a.formula.sortedNames = .ok a.names :=
  (analyze_eq_ok_iff.mp h).2.2.1

theorem nodup_names_of_analyze : a.names.Nodup :=
  Formula.nodup_of_sortedNames (sortedNames_of_analyze h)

theorem mem_names_of_analyze {x : Char} : x ∈ a.names ↔ x ∈ a.formula.names :=
  Formula.mem_of_sortedNames (sortedNames_of_analyze h)

theorem isLower_of_analyze {x : Char} (hx : x ∈ a.names) : x.isLower = true :=
  Formula.isLower_of_sortedNames (sortedNames_of_analyze h) hx

theorem enumerate_of_analyze :
    TruthTable.enumerate options.explicit a.formula a.names = .ok a.table := by
  rw [← Analysis.tableOf_eq]
  exact (analyze_eq_ok_iff.mp h).2.2.2.1

theorem length_names_of_analyze : a.names.length ≤ maxVariables :=
  (TruthTable.enumerate_eq_ok_iff.mp (enumerate_of_analyze h)).1

/-- The rows of the table can be numbered by words. -/
theorem rowsOver_le_size_of_analyze : rowsOver a.names.length ≤ UInt64.size :=
  TruthTable.rowsOver_le_size (length_names_of_analyze h)

/-- The table is that of the formula. -/
theorem isTableOf_of_analyze : a.table.IsTableOf a.formula a.names :=
  TruthTable.isTableOf_of_enumerate (enumerate_of_analyze h)

theorem output?_of_analyze {i : Minterm} (hi : i.toNat < rowsOver a.names.length) :
    a.table.output? i =
      some (a.formula.value (TruthTable.rowValuation a.names i.toNat)) := by
  obtain ⟨b, hb, heval⟩ := (isTableOf_of_analyze h).eval_eq i hi
  rw [TruthTable.eval_assignment (nodup_names_of_analyze h) fun x =>
    (mem_names_of_analyze h).mpr] at heval
  rw [hb, Except.ok.inj heval]

/-- The minterms are the rows in which the formula is true. -/
theorem mem_minterms_of_analyze {m : Minterm} :
    m ∈ a.table.minterms ↔ m.toNat < rowsOver a.names.length ∧
      a.formula.value (TruthTable.rowValuation a.names m.toNat) = true := by
  have htable := isTableOf_of_analyze h
  rw [htable.mem_minterms]
  by_cases hm : m.toNat < rowsOver a.names.length
  · simp [output?_of_analyze h hm, hm]
  · -- Beyond the last row there is no output.
    simp [htable.output?_eq_none m (Nat.le_of_not_lt hm), hm]

theorem inRange_of_analyze : InRange a.names.length a.table.minterms :=
  (isTableOf_of_analyze h).inRange_minterms

/-- A valuation belongs to the minterms exactly when the formula is true under it. -/
theorem map_mem_truePoints_of_analyze (ν : Char → Bool) :
    a.names.map ν ∈ truePoints a.names.length a.table.minterms ↔ a.formula.value ν = true := by
  have hnodup := nodup_names_of_analyze h
  -- The valuation is that of a row, whose number fits into a word.
  obtain ⟨i, hi, hν⟩ := TruthTable.exists_rowValuation_eq hnodup ν
  have hword : (UInt64.ofNat i).toNat = i :=
    UInt64.toNat_ofNat_of_lt' (Nat.lt_of_lt_of_le hi (rowsOver_le_size_of_analyze h))
  have hbits : a.names.map ν = indexBits (UInt64.ofNat i).toNat a.names.length := by
    rw [hword, ← TruthTable.map_rowValuation hnodup]
    exact List.map_congr_left fun x hx => (hν x hx).symm
  have hvalue : a.formula.value (TruthTable.rowValuation a.names i) = a.formula.value ν :=
    Formula.value_congr fun x hx => hν x ((mem_names_of_analyze h).mpr hx)
  rw [hbits, indexBits_mem_truePoints_iff (inRange_of_analyze h) (by rwa [hword]),
    mem_minterms_of_analyze h, hword, hvalue]
  exact and_iff_right hi

theorem simplified_of_analyze (hsimplify : options.simplify = true) :
    ∃ sum, a.simplified = some sum ∧ Simplified a.names a.table.minterms sum := by
  have hsum := (analyze_eq_ok_iff.mp h).2.2.2.2
  rw [Analysis.simplifiedOf, if_pos hsimplify, map_eq_ok_iff] at hsum
  obtain ⟨sum, hsum, hsome⟩ := hsum
  exact ⟨sum, hsome.symm, (simplify_eq_ok_iff.mp hsum).2⟩

/-- The simplified form has the values of the formula. -/
theorem value_toFormula_of_analyze (hsum : Simplified a.names a.table.minterms sum)
    (ν : Char → Bool) : sum.toFormula.value ν = a.formula.value ν := by
  rw [Bool.eq_iff_iff, SumOfProducts.value_toFormula_iff hsum.fits,
    hsum.admits_iff (List.length_map ν), map_mem_truePoints_of_analyze h]

end Stages

/-- In every row of the table, the formula that the text is read as, the table, the terms of the
simplified form and the formula it stands for have the same value, and the two formulas are
equivalent. -/
theorem analyze_agrees (hsimplify : options.simplify = true) (h : analyze options text = .ok a) :
    Formula.parse (Analysis.sourceText options text) = .ok a.formula ∧
    a.formula.sortedNames = .ok a.names ∧
    ∃ sum, a.simplified = some sum ∧
      (∀ i : Minterm, i.toNat < rowsOver a.names.length → ∃ b,
        a.formula.eval (TruthTable.assignment a.names i.toNat) = .ok b ∧
        a.table.output? i = some b ∧
        sum.covers i = b ∧
        sum.toFormula.eval (TruthTable.assignment a.names i.toNat) = .ok b) ∧
      sum.toFormula.equivalent a.formula = true := by
  obtain ⟨sum, hsome, hsum⟩ := simplified_of_analyze h hsimplify
  have hnodup := nodup_names_of_analyze h
  have hvalue := value_toFormula_of_analyze h hsum
  refine ⟨parse_of_analyze h, sortedNames_of_analyze h, sum, hsome, fun i hi => ?_,
    Formula.equivalent_iff.mpr hvalue⟩
  -- The common value is that of the formula under the valuation of the row.
  refine ⟨a.formula.value (TruthTable.rowValuation a.names i.toNat), ?_, ?_, ?_, ?_⟩
  · exact TruthTable.eval_assignment hnodup fun x => (mem_names_of_analyze h).mpr
  · exact output?_of_analyze h hi
  · rw [Bool.eq_iff_iff, hsum.covers_iff (inRange_of_analyze h) hi, mem_minterms_of_analyze h]
    exact and_iff_right hi
  · rw [← hvalue]
    exact TruthTable.eval_assignment hnodup fun x => SumOfProducts.mem_names_of_toFormula hsum.fits

/-- An implication is false when its premise alone is true, and so is its simplified form. -/
theorem analyze_agrees_implication :
    ∃ a sum, analyze {} "a > b" = .ok a ∧ a.simplified = some sum ∧
      a.formula.eval (TruthTable.assignment a.names 2) = .ok false ∧
      a.table.output? 2 = some false ∧
      sum.covers 2 = false ∧
      sum.toFormula.eval (TruthTable.assignment a.names 2) = .ok false ∧
      sum.toFormula.equivalent a.formula = true := by
  have hparse : Formula.parse "a>b" = .ok (.binary .imply (.var 'a' 0) (.var 'b' 2) 1) := by rfl
  have hnames : (Formula.binary .imply (.var 'a' 0) (.var 'b' 2) 1).sortedNames = .ok ['a', 'b'] :=
    Formula.sortedNames_eq_ok_iff_perm.mpr ⟨List.all_eq_true.mp rfl, by decide, by decide⟩
  obtain ⟨_, hok⟩ := exists_analyze_eq_ok hparse hnames
  have hrun := hok {} "a > b" rfl
  obtain ⟨-, -, sum, hsum, hrows, hequivalent⟩ := analyze_agrees rfl hrun
  obtain ⟨b, hformula, htable, hcovers, hsimplified⟩ := hrows 2 (show 2 < 4 by decide)
  -- The table settles which value it is.
  obtain rfl : false = b := Option.some.inj htable
  exact ⟨_, sum, hrun, hsum, hformula, htable, hcovers, hsimplified, hequivalent⟩

end PrimeForm
