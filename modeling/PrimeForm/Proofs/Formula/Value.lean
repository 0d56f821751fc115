import Mathlib.Data.List.Nodup
import PrimeForm.Formula.Evaluation
import PrimeForm.Formula.Variables
import PrimeForm.Proofs.Outcome

/-!
# The value of a formula

Under a valuation, which gives every name a truth value, every formula has a value. Evaluation
under an assignment computes this value as soon as the assignment covers the variables of the
formula, and otherwise stops at the first variable that has none.

## Main definitions

* `Formula.value` — the truth value under a valuation
* `Assignment.valuation` — an assignment as a valuation
* `Formula.firstUnassigned` — the first variable without a value

## Main results

* `Formula.value_congr` — the value depends on the variables of the formula only
* `Formula.eval_eq_ok_value` — evaluation computes the value
* `Formula.eval_eq_error_iff` — the only way in which evaluation fails
-/

namespace PrimeForm

namespace Formula

variable {φ ψ : Formula} {σ : Assignment} {ν μ : Char → Bool}

/-- The truth value of a formula under a valuation of all names. -/
def value (ν : Char → Bool) : Formula → Bool
  | var x _ => ν x
  | literal b => b
  | neg φ => !φ.value ν
  | binary op φ ψ _ => op.apply (φ.value ν) (ψ.value ν)

/-! ### The variables of the parts -/

@[simp] theorem mem_names_var {x y : Char} {p : Nat} : x ∈ (var y p).names ↔ x = y := by
  simp [mem_names_iff]

@[simp] theorem mem_names_literal {x : Char} {b : Bool} : x ∉ (literal b).names := by
  simp [mem_names_iff]

@[simp] theorem mem_names_neg {x : Char} : x ∈ (neg φ).names ↔ x ∈ φ.names := by
  simp [mem_names_iff]

@[simp] theorem mem_names_binary {x : Char} {op : Connective} {p : Nat} :
    x ∈ (binary op φ ψ p).names ↔ x ∈ φ.names ∨ x ∈ ψ.names := by
  simp [mem_names_iff, exists_or]

/-! ### Evaluation -/

/-- The value depends on the variables of the formula only. -/
theorem value_congr (h : ∀ x ∈ φ.names, ν x = μ x) : φ.value ν = φ.value μ := by
  induction φ with
  | var x p => exact h x (by simp)
  | literal b => rfl
  | neg φ ih => rw [value, value, ih fun x hx => h x (by simpa)]
  | binary op φ ψ p ihφ ihψ =>
    rw [value, value, ihφ fun x hx => h x (by simp [hx]), ihψ fun x hx => h x (by simp [hx])]

/-- Evaluation computes the value under an assignment that covers the variables. -/
theorem eval_eq_ok_value (h : ∀ x ∈ φ.names, σ.value? x = some (ν x)) :
    φ.eval σ = .ok (φ.value ν) := by
  induction φ with
  | var x p => rw [eval_var, h x (by simp)]; rfl
  | literal b => rfl
  | neg φ ih => rw [eval_neg, ih fun x hx => h x (by simpa)]; rfl
  | binary op φ ψ p ihφ ihψ =>
    rw [eval_binary, ihφ fun x hx => h x (by simp [hx]), ihψ fun x hx => h x (by simp [hx])]
    rfl

end Formula

/-- An assignment as a valuation, with `false` for the names that have no value. -/
def Assignment.valuation (σ : Assignment) (x : Char) : Bool := (σ.value? x).getD false

theorem Assignment.value?_eq_some_valuation {σ : Assignment} {x : Char}
    (h : (σ.value? x).isSome = true) : σ.value? x = some (σ.valuation x) := by
  obtain ⟨b, hb⟩ := Option.isSome_iff_exists.mp h
  rw [valuation, hb, Option.getD_some]

namespace Formula

variable {φ ψ : Formula} {σ : Assignment}

theorem eval_eq_ok_of_isSome (h : ∀ x ∈ φ.names, (σ.value? x).isSome = true) :
    φ.eval σ = .ok (φ.value σ.valuation) :=
  eval_eq_ok_value fun x hx => Assignment.value?_eq_some_valuation (h x hx)

/-- The first variable from the left that has no value. -/
def firstUnassigned (σ : Assignment) (φ : Formula) : Option Char :=
  (φ.occurrences.map Prod.fst).find? fun x => (σ.value? x).isNone

theorem firstUnassigned_binary {op : Connective} {p : Nat} :
    (binary op φ ψ p).firstUnassigned σ = (φ.firstUnassigned σ).or (ψ.firstUnassigned σ) := by
  rw [firstUnassigned, occurrences_binary, List.map_append, List.find?_append]
  rfl

theorem firstUnassigned_eq_none_iff :
    φ.firstUnassigned σ = none ↔ ∀ x ∈ φ.names, (σ.value? x).isSome = true := by
  simp [firstUnassigned, mem_names_iff, Option.isSome_iff_ne_none]

/-- Evaluation fails at the first variable from the left that has no value. -/
theorem eval_eq_error_of_firstUnassigned {x : Char} (h : φ.firstUnassigned σ = some x) :
    φ.eval σ = .error (.unassigned x) := by
  induction φ with
  | var y p =>
    obtain ⟨hnone, rfl⟩ : σ.value? y = none ∧ y = x := by
      simpa [firstUnassigned] using h
    rw [eval_var, hnone]
  | literal b => cases h
  | neg φ ih =>
    rw [eval_neg, ih h]
    rfl
  | binary op φ ψ p ihφ ihψ =>
    rw [firstUnassigned_binary, Option.or_eq_some_iff] at h
    rcases h with hφ | ⟨hφ, hψ⟩
    · rw [eval_binary, ihφ hφ]
      rfl
    · -- The left operand has a value, but this does not spare the right one.
      rw [eval_binary, eval_eq_ok_of_isSome (firstUnassigned_eq_none_iff.mp hφ), ihψ hψ]
      rfl

theorem eval_eq_error_iff {e : EvaluationError} :
    φ.eval σ = .error e ↔ ∃ x, φ.firstUnassigned σ = some x ∧ e = .unassigned x := by
  cases hfirst : φ.firstUnassigned σ with
  | none => simp [eval_eq_ok_of_isSome (firstUnassigned_eq_none_iff.mp hfirst)]
  | some x => simp [eval_eq_error_of_firstUnassigned hfirst, eq_comm]

end Formula

end PrimeForm
