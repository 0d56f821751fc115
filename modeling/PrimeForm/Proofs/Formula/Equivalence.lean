import Mathlib.Data.List.Basic
import PrimeForm.Formula.Equivalence
import PrimeForm.Minterm
import PrimeForm.Proofs.Assignment
import PrimeForm.Proofs.Formula.Value

/-!
# Equivalence tries all assignments

The wheels of an odometer pass through every combination of truth values once. From all wheels at
`false`, the turns are over after as many combinations as there are rows of a truth table. The
search for a difference between two formulas follows the wheels, so it finds one if there is one,
and no evaluation on its way fails.

## Main definitions

* `Odometer.after` — the wheels after a number of turns

## Main results

* `Odometer.after_eq_some_iff`, `Odometer.after_eq_none_iff` — where the wheels stand, and how long
  they turn
* `Formula.agreeFrom_iff` — the search looks at all positions of the wheels
* `Formula.equivalent_iff` — equivalence is equality of the values
* `equivalent_eq_true_iff` — when the search ends, and with which outcome
-/

namespace PrimeForm

namespace Odometer

variable {wheels wheels' : List Bool} {n : Nat}

/-! ### One turn -/

theorem length_of_next (h : next wheels = some wheels') : wheels'.length = wheels.length := by
  induction wheels generalizing wheels' with
  | nil => cases h
  | cons wheel wheels ih =>
    cases wheel with
    | false =>
      cases h
      rfl
    | true =>
      obtain ⟨rest, hrest, rfl⟩ := Option.map_eq_some_iff.mp h
      exact congrArg (· + 1) (ih hrest)

/-- The wheels fall back together when no turn is left. -/
theorem next_eq_none_iff : next wheels = none ↔ turnsLeft wheels = 0 := by
  induction wheels with
  | nil => simp [next, turnsLeft]
  | cons wheel wheels ih =>
    cases wheel with
    | false => simp [next, turnsLeft]
    | true =>
      rw [next, Option.map_eq_none_iff, ih, turnsLeft, Bool.not_true, Bool.toNat_false]
      omega

/-- Wheels of the same number are told apart by the turns that are left. -/
theorem turnsLeft_inj (hlen : wheels.length = wheels'.length) :
    turnsLeft wheels = turnsLeft wheels' ↔ wheels = wheels' := by
  refine ⟨fun h => ?_, congrArg turnsLeft⟩
  induction wheels generalizing wheels' with
  | nil => exact (List.length_eq_zero_iff.mp hlen.symm).symm
  | cons wheel wheels ih =>
    cases wheels' with
    | nil => cases hlen
    | cons wheel' wheels' =>
      -- The first wheel is the parity of the turns.
      simp only [turnsLeft] at h
      have hwheel : wheel = wheel' := by
        cases wheel <;> cases wheel' <;> simp at h ⊢ <;> omega
      subst hwheel
      rw [ih (Nat.succ.inj hlen) (by omega)]

theorem turnsLeft_lt (wheels : List Bool) : turnsLeft wheels < rowsOver wheels.length := by
  induction wheels with
  | nil => decide
  | cons wheel wheels ih =>
    rw [turnsLeft, List.length_cons, rowsOver_succ]
    cases wheel <;> simp <;> omega

/-- From all wheels at `false`, all but one of the combinations are still to come. -/
theorem turnsLeft_map_false {α : Type} (l : List α) :
    turnsLeft (l.map fun _ => false) + 1 = rowsOver l.length := by
  induction l with
  | nil => rfl
  | cons a l ih =>
    rw [List.map_cons, turnsLeft, List.length_cons, rowsOver_succ]
    simp only [Bool.not_false, Bool.toNat_true]
    omega

/-! ### Many turns -/

/-- The wheels after `n` turns, unless they have fallen back by then. -/
def after : (n : Nat) → List Bool → Option (List Bool)
  | 0, wheels => some wheels
  | n + 1, wheels => (next wheels).bind (after n)

/-- Each position of the wheels is reached once, when it has as many turns left as the first
position without those made. -/
theorem after_eq_some_iff :
    after n wheels = some wheels' ↔
      wheels'.length = wheels.length ∧ turnsLeft wheels' + n = turnsLeft wheels := by
  induction n generalizing wheels with
  | zero =>
    rw [after, Option.some.injEq, Nat.add_zero]
    constructor
    · rintro rfl
      exact ⟨rfl, rfl⟩
    · intro h
      exact ((turnsLeft_inj h.1).mp h.2).symm
  | succ n ih =>
    rw [after]
    cases hnext : next wheels with
    | none =>
      have hzero := next_eq_none_iff.mp hnext
      simp only [Option.bind_none, reduceCtorEq, false_iff]
      omega
    | some second =>
      have hturn := turnsLeft_of_next hnext
      rw [Option.bind_some, ih, length_of_next hnext, hturn, ← Nat.add_assoc,
        Nat.add_right_cancel_iff]

/-- The wheels turn as often as they have turns left. -/
theorem after_eq_none_iff : after n wheels = none ↔ turnsLeft wheels < n := by
  induction n generalizing wheels with
  | zero => simp [after]
  | succ n ih =>
    rw [after]
    cases hnext : next wheels with
    | none => simp [next_eq_none_iff.mp hnext]
    | some second => rw [Option.bind_some, ih, turnsLeft_of_next hnext, Nat.add_lt_add_iff_right]

/-- Every combination of as many wheels comes after the one of all wheels at `false`. -/
theorem exists_after_eq_some {α : Type} (l : List α) (hlen : wheels.length = l.length) :
    ∃ n, after n (l.map fun _ => false) = some wheels := by
  have hlt := turnsLeft_lt wheels
  have hstart := turnsLeft_map_false l
  refine ⟨turnsLeft (l.map fun _ => false) - turnsLeft wheels, after_eq_some_iff.mpr ⟨?_, ?_⟩⟩
  · rw [hlen, List.length_map]
  · rw [hlen] at hlt
    omega

end Odometer

namespace Formula

variable {φ ψ : Formula} {names : List Char} {wheels : List Bool}

/-- One step of the search: the position of the wheels itself, and the search from the next one. -/
theorem agreeFrom_eq_true_iff :
    agreeFrom φ ψ names wheels = true ↔
      agreeUnder φ ψ (.ofBits names wheels) = true ∧
        ∀ wheels', Odometer.next wheels = some wheels' → agreeFrom φ ψ names wheels' = true := by
  rw [agreeFrom, Bool.and_eq_true]
  refine and_congr_right fun _ => ?_
  split
  · rename_i hnext
    simp [hnext]
  · rename_i second hnext
    simp [hnext]

/-- The search looks at the position of the wheels that it starts from and at all that follow. -/
theorem agreeFrom_iff :
    agreeFrom φ ψ names wheels = true ↔
      ∀ n wheels', Odometer.after n wheels = some wheels' →
        agreeUnder φ ψ (.ofBits names wheels') = true := by
  induction wheels using agreeFrom.induct with
  | case1 wheels ih =>
    rw [agreeFrom_eq_true_iff]
    refine ⟨fun h n => ?_, fun h => ⟨h 0 wheels rfl, fun second hnext => ?_⟩⟩
    · cases n with
      | zero =>
        rintro wheels' ⟨⟩
        exact h.1
      | succ n =>
        intro wheels' hafter
        obtain ⟨second, hnext, hafter⟩ := Option.bind_eq_some_iff.mp hafter
        exact (ih second hnext).mp (h.2 second hnext) n wheels' hafter
    · refine (ih second hnext).mpr fun n wheels' hafter => h (n + 1) wheels' ?_
      exact Option.bind_eq_some_iff.mpr ⟨second, hnext, hafter⟩

/-- The search for a difference looks at all values of the variables. -/
theorem equivalent_iff_agreeUnder :
    φ.equivalent ψ = true ↔
      ∀ wheels : List Bool, wheels.length = (ascending (φ.names ++ ψ.names)).length →
        agreeUnder φ ψ (.ofBits (ascending (φ.names ++ ψ.names)) wheels) = true := by
  rw [equivalent, agreeFrom_iff]
  refine ⟨fun h wheels hlen => ?_, fun h n wheels hafter => h wheels ?_⟩
  · obtain ⟨n, hafter⟩ := Odometer.exists_after_eq_some _ hlen
    exact h n wheels hafter
  · rw [(Odometer.after_eq_some_iff.mp hafter).1, List.length_map]

/-- Under values for the variables of both formulas, neither evaluation fails. -/
theorem isSome_value?_ofBits_ascending
    (hlen : wheels.length = (ascending (φ.names ++ ψ.names)).length) {x : Char}
    (hx : x ∈ φ.names ∨ x ∈ ψ.names) :
    ((Assignment.ofBits (ascending (φ.names ++ ψ.names)) wheels).value? x).isSome = true :=
  (Assignment.isSome_value?_ofBits hlen.symm).mpr (mem_ascending.mpr (List.mem_append.mpr hx))

/-- Formulas are equivalent exactly when they have the same value under every valuation. -/
theorem equivalent_iff : φ.equivalent ψ = true ↔ ∀ ν, φ.value ν = ψ.value ν := by
  rw [equivalent_iff_agreeUnder]
  constructor
  · -- The values that a valuation gives to the variables are a position of the wheels.
    intro h ν
    obtain ⟨b, hφ, hψ⟩ := agreeUnder_iff.mp (h _ (List.length_map ν))
    rw [eval_eq_ok_value fun x hx => Assignment.value?_ofBits_map (ν := ν) (by simp [hx])] at hφ hψ
    exact Except.ok.inj (hφ.trans hψ.symm)
  · intro h wheels hlen
    refine agreeUnder_iff.mpr ⟨_, eval_eq_ok_of_isSome fun x hx => ?_, ?_⟩
    · exact isSome_value?_ofBits_ascending hlen (.inl hx)
    · rw [h]
      exact eval_eq_ok_of_isSome fun x hx => isSome_value?_ofBits_ascending hlen (.inr hx)

end Formula

/-- The wheels of the variables of two formulas turn until every combination of values has been
reached, none of the evaluations on the way fails, and the formulas are found equivalent exactly
when they have the same value under every assignment of the variables of both. -/
theorem equivalent_eq_true_iff (φ ψ : Formula) :
    let names := ascending (φ.names ++ ψ.names)
    let start := names.map fun _ => false
    (∀ n, Odometer.after n start = none ↔ rowsOver names.length ≤ n) ∧
    (∀ n wheels, Odometer.after n start = some wheels →
      ∃ a b, φ.eval (.ofBits names wheels) = .ok a ∧ ψ.eval (.ofBits names wheels) = .ok b) ∧
    (φ.equivalent ψ = true ↔
      ∀ σ : Assignment, (∀ x, x ∈ φ.names ∨ x ∈ ψ.names → (σ.value? x).isSome = true) →
        ∃ b, φ.eval σ = .ok b ∧ ψ.eval σ = .ok b) := by
  intro names start
  refine ⟨fun n => ?_, fun n wheels hafter => ?_, ?_⟩
  · have hstart : Odometer.turnsLeft start + 1 = rowsOver names.length :=
      Odometer.turnsLeft_map_false names
    rw [Odometer.after_eq_none_iff, ← hstart, Nat.lt_iff_add_one_le]
  · have hlen : wheels.length = names.length := by
      rw [(Odometer.after_eq_some_iff.mp hafter).1, List.length_map]
    have hvalue (x : Char) (hx : x ∈ φ.names ∨ x ∈ ψ.names) :=
      Formula.isSome_value?_ofBits_ascending hlen hx
    exact ⟨_, _, Formula.eval_eq_ok_of_isSome fun x hx => hvalue x (.inl hx),
      Formula.eval_eq_ok_of_isSome fun x hx => hvalue x (.inr hx)⟩
  · rw [Formula.equivalent_iff]
    constructor
    · intro h σ hσ
      refine ⟨_, Formula.eval_eq_ok_of_isSome fun x hx => hσ x (.inl hx), ?_⟩
      rw [h]
      exact Formula.eval_eq_ok_of_isSome fun x hx => hσ x (.inr hx)
    · -- A valuation is an assignment of all variables.
      intro h ν
      obtain ⟨b, hφ, hψ⟩ := h ⟨fun x => some (ν x)⟩ fun _ _ => rfl
      rw [Formula.eval_eq_ok_value fun _ _ => rfl] at hφ hψ
      exact Except.ok.inj (hφ.trans hψ.symm)

end PrimeForm
