import Mathlib.Logic.ExistsUnique
import PrimeForm.Proofs.TruthTable

/-!
# What a truth table says

A truth table is set up exactly if its names are not too many and cover the variables of the
formula. It then has the value of the formula in every row, and every assignment of the names
belongs to one row. A name with several columns has the value of the last one.

## Main definitions

* `TruthTable.IsTableOf` — a table that says all this

## Main results

* `TruthTable.existsUnique_mem_rows` — every vector of truth values is the inputs of one row
* `TruthTable.isTableOf_ofValues` — the table with all values is the table of its formula
* `build_outcome` — when there is a table, and what it says
-/

namespace PrimeForm

namespace TruthTable

variable {φ : Formula} {names : List Char} {table : TruthTable}

/-- A table with the values of a formula in the rows of a list of names. -/
structure IsTableOf (φ : Formula) (names : List Char) (table : TruthTable) : Prop where
  names_eq : table.names = names
  /-- Every name doubles the number of rows. -/
  rowCount_eq : table.rowCount = rowsOver names.length
  /-- The output of a row is the value of the formula under the assignment of the row. -/
  eval_eq (i : Minterm) (hi : i.toNat < rowsOver names.length) :
    ∃ b, table.output? i = some b ∧ φ.eval (assignment names i.toNat) = .ok b
  /-- Behind the last row there are no outputs. -/
  output?_eq_none (i : Minterm) (hi : rowsOver names.length ≤ i.toNat) : table.output? i = none
  mem_minterms (i : Minterm) : i ∈ table.minterms ↔ table.output? i = some true
  pairwise_minterms : table.minterms.Pairwise (· < ·)
  /-- A row has the bits of its number as inputs, and the value of the formula as output. -/
  mem_rows (row : Row) : row ∈ table.rows ↔ row.index < rowsOver names.length ∧
    row.inputs = indexBits row.index names.length ∧
    φ.eval (assignment names row.index) = .ok row.output
  /-- Each assignment of the names is the inputs of one row. -/
  existsUnique_row (ν : Char → Bool) : ∃! row, row ∈ table.rows ∧ row.inputs = names.map ν
  /-- Over names that differ from each other, the inputs of a row are an assignment. -/
  exists_valuation (h : names.Nodup) (row : Row) (hrow : row ∈ table.rows) :
    ∃ ν : Char → Bool, row.inputs = names.map ν

/-! ### The rows of a table -/

/-- The rows have the numbers below the number of rows, and the bits of these numbers as inputs. -/
theorem mem_rows_iff {row : Row} :
    row ∈ table.rows ↔ table.outputs[row.index]? = some row.output ∧
      row.inputs = indexBits row.index table.names.length := by
  obtain ⟨index, inputs, output⟩ := row
  simp only [rows, List.mem_map, Prod.exists, Row.mk.injEq, List.mem_zipIdx_iff_getElem?]
  constructor
  · rintro ⟨b, i, hi, rfl, rfl, rfl⟩
    exact ⟨hi, rfl⟩
  · rintro ⟨hi, rfl⟩
    exact ⟨output, index, hi, rfl, rfl, rfl⟩

/-- Every vector of truth values is the inputs of one row. -/
theorem existsUnique_mem_rows (hcount : table.outputs.length = rowsOver table.names.length)
    {v : List Bool} (hv : v.length = table.names.length) :
    ∃! row, row ∈ table.rows ∧ row.inputs = v := by
  obtain ⟨i, hi, hbits⟩ := exists_indexBits_eq v
  rw [hv] at hi hbits
  have hlast : i < table.outputs.length := hcount ▸ hi
  have hcell := List.getElem?_eq_getElem hlast
  refine ⟨⟨i, v, table.outputs[i]⟩, ⟨mem_rows_iff.mpr ⟨hcell, hbits.symm⟩, rfl⟩, ?_⟩
  rintro ⟨j, inputs, output⟩ ⟨hrow, rfl⟩
  obtain ⟨hj, hinputs⟩ := mem_rows_iff.mp hrow
  dsimp only at hj hinputs hbits ⊢
  -- Two rows with the same inputs have the same number, and thereby the same output.
  have hrange : j < rowsOver table.names.length :=
    hcount ▸ (List.getElem?_eq_some_iff.mp hj).1
  obtain rfl : i = j := (indexBits_inj hi hrange).mp (hbits.trans hinputs)
  rw [Option.some.inj (hcell.symm.trans hj)]

/-! ### Setting up a table -/

/-- The table with the values of a formula says what the table of the formula should. -/
theorem isTableOf_ofValues {traced : Bool} (hlen : names.length ≤ maxVariables)
    (hcover : ∀ x ∈ φ.names, x ∈ names) : IsTableOf φ names (ofValues traced φ names) := by
  have hcount : (ofValues traced φ names).outputs.length = rowsOver names.length := by
    rw [ofValues, List.length_map, List.length_range]
  have heval (i : Nat) : φ.eval (assignment names i) = .ok (φ.value (rowValuation names i)) :=
    Formula.eval_eq_ok_of_isSome fun x hx => isSome_value?_assignment.mpr (hcover x hx)
  exact
    { names_eq := rfl
      rowCount_eq := hcount
      eval_eq := fun i hi => ⟨_, getElem?_outputs_ofValues_eq_some_iff.mpr ⟨hi, rfl⟩, heval i.toNat⟩
      output?_eq_none := fun i hi => List.getElem?_eq_none (hcount ▸ hi)
      mem_minterms := fun i => mem_minterms_ofValues hlen
      pairwise_minterms := pairwise_minterms_ofValues hlen
      mem_rows := fun row => by
        rw [mem_rows_iff, getElem?_outputs_ofValues_eq_some_iff, heval, Except.ok.injEq, and_assoc,
          and_comm (a := row.inputs = _)]
        rfl
      existsUnique_row := fun ν => existsUnique_mem_rows hcount (List.length_map ν)
      exists_valuation := fun hnodup row hrow => ⟨rowValuation names row.index,
        (mem_rows_iff.mp hrow).2.trans (map_rowValuation hnodup).symm⟩ }

theorem isTableOf_of_enumerate {traced : Bool} (h : enumerate traced φ names = .ok table) :
    IsTableOf φ names table := by
  obtain ⟨hlen, hcover, rfl⟩ := enumerate_eq_ok_iff.mp h
  exact isTableOf_ofValues hlen hcover

/-- The explicit text is all that a traced table has in addition. -/
theorem enumerate_true_eq (φ : Formula) (names : List Char) :
    enumerate true φ names = (enumerate false φ names).map fun table =>
      { table with explicit := some φ.explicitText } := by
  cases h : enumerate false φ names with
  | error e => exact enumerate_eq_error_iff.mpr (enumerate_eq_error_iff.mp h)
  | ok table =>
    obtain ⟨hlen, hcover, rfl⟩ := enumerate_eq_ok_iff.mp h
    exact enumerate_eq_ok hlen hcover

/-- A name gets the bit of its last column, the first column being the most significant. -/
theorem value?_assignment_of_last {i j : Nat} {x : Char} (hx : names[j]? = some x)
    (hlast : x ∉ names.drop (j + 1)) :
    (assignment names i).value? x = some (i.testBit (names.length - 1 - j)) :=
  Assignment.value?_ofBits_of_last hx hlast
    (getElem?_indexBits (List.getElem?_eq_some_iff.mp hx).1)

end TruthTable

open TruthTable

/-- There is no table over too many names, and none over names that leave out a variable of the
formula; then the first such variable is reported. In all other cases there is the table of the
formula. With the explicit text it is the same table, or the same error. -/
theorem build_outcome (φ : Formula) (names : List Char) :
    (∀ e, build φ names = .error e ↔
      maxVariables < names.length ∧ e = .tooManyVariables names.length ∨
      names.length ≤ maxVariables ∧ ∃ x,
        (φ.occurrences.map Prod.fst).find? (fun x => x ∉ names) = some x ∧ e = .unassigned x) ∧
    (names.length ≤ maxVariables → (∀ x ∈ φ.names, x ∈ names) →
      ∃ table, build φ names = .ok table ∧ table.explicit = none ∧ IsTableOf φ names table) ∧
    (∀ i j x, names[j]? = some x → x ∉ names.drop (j + 1) →
      (assignment names i).value? x = some (i.testBit (names.length - 1 - j))) ∧
    buildTraced φ names =
      (build φ names).map fun table => { table with explicit := some φ.explicitText } := by
  refine ⟨fun e => enumerate_eq_error_iff, fun hlen hcover => ?_,
    fun i j x => value?_assignment_of_last, enumerate_true_eq φ names⟩
  exact ⟨_, enumerate_eq_ok hlen hcover, rfl, isTableOf_ofValues hlen hcover⟩

end PrimeForm
