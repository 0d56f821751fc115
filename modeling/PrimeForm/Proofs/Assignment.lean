import Mathlib.Data.List.Forall2
import Mathlib.Data.List.Nodup
import PrimeForm.Assignment

/-!
# The assignment of a row

A row of bits gives a name the bit of its column, and of its last column if it has more than one.
Names without a column get no value.

## Main results

* `Assignment.value?_ofBits_of_last` — the bit that a name gets
* `Assignment.value?_ofBits_of_not_mem`, `Assignment.isSome_value?_ofBits` — which names get one
* `Assignment.setAll_eq_ofBits` — a row written over another one
* `Assignment.value?_ofBits_map` — the bits that a valuation gives to the names
* `Assignment.forall₂_value?_ofBits` — all the bits, for names that differ from each other
-/

namespace PrimeForm

namespace Assignment

variable {names : List Char} {bits : List Bool} {x : Char} {i : Nat}

theorem setAll_cons (σ : Assignment) (y : Char) (names : List Char) (b : Bool) (bits : List Bool) :
    σ.setAll (y :: names) (b :: bits) = (σ.set y b).setAll names bits := rfl

/-- Columns of other names do not touch a name. -/
theorem value?_setAll_of_not_mem (σ : Assignment) (h : x ∉ names) :
    (σ.setAll names bits).value? x = σ.value? x := by
  induction names generalizing bits σ with
  | nil => rfl
  | cons y names ih =>
    cases bits with
    | nil => rfl
    | cons b bits =>
      obtain ⟨hxy, hx⟩ := List.ne_and_not_mem_of_not_mem_cons h
      rw [setAll_cons, ih _ hx, value?_set, if_neg hxy]

/-- The last column of a name decides, whatever stands in the columns before it. -/
theorem value?_setAll_of_last (σ : Assignment) {b : Bool} (hx : names[i]? = some x)
    (hlast : x ∉ names.drop (i + 1)) (hb : bits[i]? = some b) :
    (σ.setAll names bits).value? x = some b := by
  induction names generalizing bits σ i with
  | nil => cases hx
  | cons y names ih =>
    cases bits with
    | nil => cases hb
    | cons c bits =>
      rw [setAll_cons]
      cases i with
      | zero =>
        obtain rfl : y = x := Option.some.inj hx
        obtain rfl : c = b := Option.some.inj hb
        have hnot : y ∉ names := hlast
        rw [value?_setAll_of_not_mem _ hnot, value?_set_self]
      | succ i => exact ih _ hx hlast hb

theorem value?_ofBits_of_not_mem (h : x ∉ names) : (ofBits names bits).value? x = none :=
  value?_setAll_of_not_mem empty h

/-- A name gets the bit of its last column. -/
theorem value?_ofBits_of_last {b : Bool} (hx : names[i]? = some x)
    (hlast : x ∉ names.drop (i + 1)) (hb : bits[i]? = some b) :
    (ofBits names bits).value? x = some b :=
  value?_setAll_of_last empty hx hlast hb

theorem exists_last_column (h : x ∈ names) :
    ∃ i, names[i]? = some x ∧ x ∉ names.drop (i + 1) := by
  induction names with
  | nil => cases h
  | cons y names ih =>
    by_cases hx : x ∈ names
    · obtain ⟨i, hi, hlast⟩ := ih hx
      exact ⟨i + 1, hi, hlast⟩
    · obtain rfl : x = y := (List.mem_cons.mp h).resolve_right hx
      exact ⟨0, rfl, hx⟩

/-- The names that get a value are those with a column. -/
theorem isSome_value?_ofBits (hlen : names.length = bits.length) :
    ((ofBits names bits).value? x).isSome = true ↔ x ∈ names := by
  refine ⟨fun h => ?_, fun hx => ?_⟩
  · by_contra hx
    rw [value?_ofBits_of_not_mem hx] at h
    cases h
  · obtain ⟨i, hi, hlast⟩ := exists_last_column hx
    have hcolumn : i < bits.length := hlen ▸ (List.getElem?_eq_some_iff.mp hi).1
    rw [value?_ofBits_of_last hi hlast (List.getElem?_eq_getElem hcolumn)]
    rfl

/-- Over an assignment of no other names, a row leaves nothing of what was there before. -/
theorem setAll_eq_ofBits {σ : Assignment} (hσ : ∀ x ∉ names, σ.value? x = none)
    (hlen : names.length = bits.length) : σ.setAll names bits = ofBits names bits := by
  ext x : 2
  by_cases hx : x ∈ names
  · obtain ⟨i, hi, hlast⟩ := exists_last_column hx
    have hbit := List.getElem?_eq_getElem (hlen ▸ (List.getElem?_eq_some_iff.mp hi).1)
    rw [value?_ofBits_of_last hi hlast hbit, value?_setAll_of_last σ hi hlast hbit]
  · rw [value?_ofBits_of_not_mem hx, value?_setAll_of_not_mem σ hx, hσ x hx]

/-- From the bits that a valuation gives to the names, every name gets its value back. -/
theorem value?_ofBits_map {ν : Char → Bool} (hx : x ∈ names) :
    (ofBits names (names.map ν)).value? x = some (ν x) := by
  obtain ⟨i, hi, hlast⟩ := exists_last_column hx
  exact value?_ofBits_of_last hi hlast (by rw [List.getElem?_map, hi, Option.map_some])

/-- Names that differ from each other get the bits of their columns. -/
theorem forall₂_value?_ofBits (hnodup : names.Nodup) (hlen : names.length = bits.length) :
    List.Forall₂ (fun x b => (ofBits names bits).value? x = some b) names bits := by
  refine List.forall₂_iff_get.mpr ⟨hlen, fun i hi hi' => ?_⟩
  have hlast : names[i] ∉ names.drop (i + 1) := by
    have hdrop := hnodup.sublist (List.drop_sublist i names)
    rw [List.drop_eq_getElem_cons hi] at hdrop
    exact (List.nodup_cons.mp hdrop).1
  exact value?_ofBits_of_last (List.getElem?_eq_getElem hi) hlast (List.getElem?_eq_getElem hi')

end Assignment

end PrimeForm
