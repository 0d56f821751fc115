import PrimeForm.Proofs.Assignment
import PrimeForm.Proofs.Formula.Value
import PrimeForm.TruthTable

/-!
# Rows of a truth table

A row gives every name the bit of its column, and over names that differ from each other each
valuation of the names is that of a row. A table is set up row by row, and each row is written over
the one before it; still no row depends on another. So a table lists the values of a formula under
all valuations of the names, and its minterms are the rows in which the value is true. There is no
table if the names are too many, or if a variable of the formula is not among them.

## Main definitions

* `TruthTable.assignment`, `TruthTable.rowValuation` — the assignment and the valuation of a row
* `TruthTable.ofValues` — the table with the values of a formula in all rows
* `TruthTable.Draft.IsAfter` — what a table in the making says after a number of rows

## Main results

* `TruthTable.map_rowValuation` — the values of the names are the bits of the row
* `TruthTable.exists_rowValuation_eq` — every valuation of the names is that of a row
* `TruthTable.Draft.IsAfter.addRow`, `TruthTable.Draft.exists_isAfter` — one row, and many
* `TruthTable.enumerate_eq_ok_iff`, `TruthTable.enumerate_eq_error_iff` — the values of a formula in
  all rows, or the reason why there are none
* `TruthTable.mem_minterms_ofValues`, `TruthTable.pairwise_minterms_ofValues` — the minterms that
  are collected are the rows with a true output, in counting order
-/

namespace PrimeForm

namespace TruthTable

/-- The assignment that row `index` makes to the variables. -/
def assignment (names : List Char) (index : Nat) : Assignment :=
  .ofBits names (indexBits index names.length)

variable {φ : Formula} {names : List Char} {ν : Char → Bool} {i : Nat}

/-! ### Rows as valuations -/

/-- The valuation that a row stands for; names without a column are false. -/
def rowValuation (names : List Char) (index : Nat) (x : Char) : Bool :=
  ((assignment names index).value? x).getD false

theorem forall₂_value?_assignment (h : names.Nodup) :
    List.Forall₂ (fun x b => (assignment names i).value? x = some b) names
      (indexBits i names.length) :=
  Assignment.forall₂_value?_ofBits h (length_indexBits _ _).symm

/-- A row gives every name a value. -/
theorem value?_assignment (h : names.Nodup) {x : Char} (hx : x ∈ names) :
    (assignment names i).value? x = some (rowValuation names i x) := by
  -- The value stands in the column of the name.
  obtain ⟨j, hj, rfl⟩ := List.getElem_of_mem hx
  have hcolumn := (forall₂_value?_assignment (i := i) h).get hj (by simpa using hj)
  simp only [List.get_eq_getElem] at hcolumn
  rw [rowValuation, hcolumn, Option.getD_some]

/-- The values that a row gives to the names are its bits. -/
theorem map_rowValuation (h : names.Nodup) :
    names.map (rowValuation names i) = indexBits i names.length := by
  rw [← List.forall₂_eq_eq_eq, List.forall₂_map_left_iff]
  refine (forall₂_value?_assignment h).imp fun x b hb => ?_
  rw [rowValuation, hb, Option.getD_some]

/-- Every valuation agrees with some row on the names. -/
theorem exists_rowValuation_eq (h : names.Nodup) (ν : Char → Bool) :
    ∃ i < rowsOver names.length, ∀ x ∈ names, rowValuation names i x = ν x := by
  obtain ⟨i, hi, hbits⟩ := exists_indexBits_eq (names.map ν)
  rw [List.length_map] at hi hbits
  refine ⟨i, hi, List.map_inj_left.mp ?_⟩
  rw [map_rowValuation h, hbits]

theorem eval_assignment (h : names.Nodup) (hcover : ∀ x ∈ φ.names, x ∈ names) :
    φ.eval (assignment names i) = .ok (φ.value (rowValuation names i)) :=
  Formula.eval_eq_ok_value fun x hx => value?_assignment h (hcover x hx)

/-! ### Names with and without a column -/

theorem isSome_value?_assignment {x : Char} :
    ((assignment names i).value? x).isSome = true ↔ x ∈ names :=
  Assignment.isSome_value?_ofBits (length_indexBits _ _).symm

/-- The first variable without a value is the same in all rows. -/
theorem firstUnassigned_assignment :
    φ.firstUnassigned (assignment names i) =
      (φ.occurrences.map Prod.fst).find? fun x => x ∉ names := by
  rw [Formula.firstUnassigned]
  congr 1
  funext x
  rw [Bool.eq_iff_iff, Option.isNone_iff_eq_none, decide_eq_true_eq,
    ← isSome_value?_assignment (i := i), Option.isSome_iff_ne_none, not_not]

theorem find?_not_mem_eq_none_iff :
    ((φ.occurrences.map Prod.fst).find? fun x => x ∉ names) = none ↔ ∀ x ∈ φ.names, x ∈ names := by
  rw [← firstUnassigned_assignment (i := 0), Formula.firstUnassigned_eq_none_iff]
  simp only [isSome_value?_assignment]

/-! ### The table with all values -/

/-- The numbers of the rows below `count` in which a formula is true. -/
def trueRows (φ : Formula) (names : List Char) (count : Nat) : List Minterm :=
  ((List.range count).filter fun i => φ.value (rowValuation names i)).map UInt64.ofNat

/-- The table with the values of a formula in all rows. -/
def ofValues (traced : Bool) (φ : Formula) (names : List Char) : TruthTable where
  names := names
  outputs := (List.range (rowsOver names.length)).map fun i => φ.value (rowValuation names i)
  minterms := trueRows φ names (rowsOver names.length)
  explicit := if traced then some φ.explicitText else none

theorem trueRows_succ (count : Nat) :
    trueRows φ names (count + 1) = trueRows φ names count ++
      if φ.value (rowValuation names count) then [UInt64.ofNat count] else [] := by
  rw [trueRows, trueRows, List.range_succ, List.filter_append, List.map_append]
  cases h : φ.value (rowValuation names count) <;> simp [h]

/-- The outputs of the table are the values of the formula. -/
theorem getElem?_outputs_ofValues_eq_some_iff {traced b : Bool} :
    (ofValues traced φ names).outputs[i]? = some b ↔
      i < rowsOver names.length ∧ φ.value (rowValuation names i) = b := by
  rw [ofValues, List.getElem?_map, Option.map_eq_some_iff]
  simp [List.getElem?_eq_some_iff]

/-- The rows of a table can be numbered by words. -/
theorem rowsOver_le_size (h : names.length ≤ maxVariables) :
    rowsOver names.length ≤ UInt64.size :=
  Nat.le_trans (Nat.pow_le_pow_right (by decide) h) (show 2 ^ maxVariables ≤ UInt64.size by decide)

/-- The numbers of the true rows fit into words, so none of them is altered. -/
theorem toNat_ofNat_of_lt_rowsOver (hlen : names.length ≤ maxVariables)
    (hi : i < rowsOver names.length) : (UInt64.ofNat i).toNat = i :=
  UInt64.toNat_ofNat_of_lt' (Nat.lt_of_lt_of_le hi (rowsOver_le_size hlen))

/-- The minterms of the table are its rows with a true output. -/
theorem mem_minterms_ofValues {traced : Bool} (hlen : names.length ≤ maxVariables) {m : Minterm} :
    m ∈ (ofValues traced φ names).minterms ↔ (ofValues traced φ names).output? m = some true := by
  rw [output?, getElem?_outputs_ofValues_eq_some_iff]
  simp only [ofValues, trueRows, List.mem_map, List.mem_filter, List.mem_range]
  constructor
  · rintro ⟨i, ⟨hi, htrue⟩, rfl⟩
    rw [toNat_ofNat_of_lt_rowsOver hlen hi]
    exact ⟨hi, htrue⟩
  · intro h
    exact ⟨m.toNat, h, UInt64.ofNat_toNat⟩

/-- The minterms of the table ascend strictly. -/
theorem pairwise_minterms_ofValues {traced : Bool} (hlen : names.length ≤ maxVariables) :
    (ofValues traced φ names).minterms.Pairwise (· < ·) := by
  have hrows := List.pairwise_lt_range (n := rowsOver names.length)
  refine List.pairwise_map.mpr ((hrows.filter _).imp_of_mem fun {i j} hi hj hlt => ?_)
  have hi := List.mem_range.mp (List.mem_of_mem_filter hi)
  have hj := List.mem_range.mp (List.mem_of_mem_filter hj)
  rw [UInt64.lt_iff_toNat_lt, toNat_ofNat_of_lt_rowsOver hlen hi,
    toNat_ofNat_of_lt_rowsOver hlen hj]
  exact hlt

/-! ### One row after another -/

/-- What a table in the making says when the rows below `count` are in it. -/
structure Draft.IsAfter (traced : Bool) (φ : Formula) (names : List Char) (count : Nat)
    (draft : Draft) : Prop where
  /-- The rows have left values for the names, and for nothing else. -/
  value?_eq_none (x : Char) (hx : x ∉ names) : draft.latest.value? x = none
  outputs_eq : draft.outputs =
    ((List.range count).map fun i => φ.value (rowValuation names i)).reverse
  minterms_eq : draft.minterms = (trueRows φ names count).reverse
  explicit_eq : draft.explicit = if traced ∧ 0 < count then some φ.explicitText else none

namespace Draft

variable {traced : Bool} {draft : Draft}

/-- A row is evaluated under its own assignment, whatever the rows before it have been. -/
theorem addRow_eq (h : ∀ x ∉ names, draft.latest.value? x = none) :
    draft.addRow traced φ names i = (φ.eval (assignment names i)).map fun b =>
      { draft with
        latest := assignment names i
        explicit :=
          if traced && i == 0 then some φ.explicitText else draft.explicit }.record i b := by
  rw [addRow, Assignment.setAll_eq_ofBits h (length_indexBits _ _).symm, ← assignment,
    Formula.evalTraced_eq]
  split <;> cases φ.eval (assignment names i) <;> rfl

/-- Over names that cover the formula, the next row can be added. -/
theorem IsAfter.addRow (hcover : ∀ x ∈ φ.names, x ∈ names) (h : draft.IsAfter traced φ names i) :
    ∃ draft', draft.addRow traced φ names i = .ok draft' ∧
      draft'.IsAfter traced φ names (i + 1) := by
  have hvalue : φ.eval (assignment names i) = .ok (φ.value (rowValuation names i)) :=
    Formula.eval_eq_ok_of_isSome fun x hx => isSome_value?_assignment.mpr (hcover x hx)
  refine ⟨_, by rw [addRow_eq h.value?_eq_none, hvalue]; rfl, fun x hx => ?_, ?_, ?_, ?_⟩
  · exact Assignment.value?_ofBits_of_not_mem hx
  · rw [h.outputs_eq, List.range_succ, List.map_append, List.reverse_append]
    rfl
  · rw [h.minterms_eq, trueRows_succ, List.reverse_append]
    cases φ.value (rowValuation names i) <;> rfl
  · -- Only the first row writes the text, and the later ones keep it.
    rw [h.explicit_eq]
    cases i <;> simp [record]

/-- Over names that cover the formula, any number of rows can be tabulated. -/
theorem exists_isAfter (hcover : ∀ x ∈ φ.names, x ∈ names) (count : Nat) :
    ∃ draft, (List.range count).foldlM (Draft.addRow traced φ names) {} = .ok draft ∧
      draft.IsAfter traced φ names count := by
  induction count with
  | zero => exact ⟨{}, rfl, fun _ _ => rfl, rfl, rfl, by simp⟩
  | succ count ih =>
    obtain ⟨draft, hdraft, hafter⟩ := ih
    obtain ⟨draft', hrow, hafter'⟩ := hafter.addRow hcover
    refine ⟨draft', ?_, hafter'⟩
    rw [List.range_succ, List.foldlM_append, bind_eq_ok_iff]
    exact ⟨draft, hdraft, by rw [List.foldlM_cons, hrow]; rfl⟩

end Draft

/-! ### All rows -/

section Enumerate

variable {traced : Bool}

/-- There is no table over too many names. -/
theorem enumerate_eq_error_of_lt (hlen : maxVariables < names.length) :
    enumerate traced φ names = .error (.tooManyVariables names.length) :=
  if_neg (Nat.not_le_of_lt hlen)

/-- There is no table if a variable has no column. The first row finds the first of them. -/
theorem enumerate_eq_error_of_find? (hlen : names.length ≤ maxVariables) {x : Char}
    (hx : ((φ.occurrences.map Prod.fst).find? fun x => x ∉ names) = some x) :
    enumerate traced φ names = .error (.unassigned x) := by
  obtain ⟨count, hcount⟩ : ∃ count, rowsOver names.length = count + 1 :=
    Nat.exists_eq_add_one_of_ne_zero (Nat.ne_of_gt (rowsOver_pos names.length))
  have hfirst : Draft.addRow traced φ names {} 0 = .error (.unassigned x) := by
    rw [Draft.addRow_eq fun _ _ => rfl, Formula.eval_eq_error_of_firstUnassigned
      (firstUnassigned_assignment.trans hx)]
    rfl
  rw [enumerate, if_pos hlen, hcount, List.range_succ_eq_map, List.foldlM_cons, hfirst]
  rfl

/-- In all other cases there is the table with the values of the formula. -/
theorem enumerate_eq_ok (hlen : names.length ≤ maxVariables) (hcover : ∀ x ∈ φ.names, x ∈ names) :
    enumerate traced φ names = .ok (ofValues traced φ names) := by
  obtain ⟨draft, hdraft, hafter⟩ := Draft.exists_isAfter hcover (rowsOver names.length)
  rw [enumerate, if_pos hlen, bind_eq_ok_iff]
  refine ⟨draft, hdraft, congrArg Except.ok ?_⟩
  rw [hafter.outputs_eq, hafter.minterms_eq, hafter.explicit_eq, List.reverse_reverse,
    List.reverse_reverse]
  simp only [rowsOver_pos, and_true, ofValues]

/-- The two ways in which a table fails. -/
theorem enumerate_eq_error_iff {e : EvaluationError} :
    enumerate traced φ names = .error e ↔
      maxVariables < names.length ∧ e = .tooManyVariables names.length ∨
      names.length ≤ maxVariables ∧ ∃ x,
        (φ.occurrences.map Prod.fst).find? (fun x => x ∉ names) = some x ∧ e = .unassigned x := by
  rcases Nat.lt_or_ge maxVariables names.length with hlen | hlen
  · simp [enumerate_eq_error_of_lt hlen, hlen, Nat.not_le_of_lt hlen, eq_comm]
  · cases hfirst : (φ.occurrences.map Prod.fst).find? fun x => x ∉ names with
    | none =>
      have hcover := find?_not_mem_eq_none_iff.mp hfirst
      simp [enumerate_eq_ok hlen hcover, Nat.not_lt_of_le hlen]
    | some x =>
      simp [enumerate_eq_error_of_find? hlen hfirst, hlen, Nat.not_lt_of_le hlen, eq_comm]

/-- The only way in which a table succeeds. -/
theorem enumerate_eq_ok_iff {table : TruthTable} :
    enumerate traced φ names = .ok table ↔
      names.length ≤ maxVariables ∧ (∀ x ∈ φ.names, x ∈ names) ∧
      table = ofValues traced φ names := by
  rcases Nat.lt_or_ge maxVariables names.length with hlen | hlen
  · simp [enumerate_eq_error_of_lt hlen, Nat.not_le_of_lt hlen]
  · rw [← find?_not_mem_eq_none_iff]
    cases hfirst : (φ.occurrences.map Prod.fst).find? fun x => x ∉ names with
    | none => simp [enumerate_eq_ok hlen (find?_not_mem_eq_none_iff.mp hfirst), hlen, eq_comm]
    | some x => simp [enumerate_eq_error_of_find? hlen hfirst]

end Enumerate

end TruthTable

end PrimeForm
