import PrimeForm.Formula.Evaluation
import PrimeForm.Formula.Variables

/-!
# Equivalence of formulas

Two formulas are equivalent if they have equal values however the variables of both are assigned.
This is decided by trying one assignment after another. The values of the variables turn like the
wheels of an odometer: the first wheel turns every time, and a wheel that falls back from true to
false makes the next one turn as well. All assignments have been tried when all wheels fall back.

## Main definitions

* `Odometer.next` — the wheels after one turn, unless all of them fall back
* `Odometer.turnsLeft` — the number of turns until then
* `Formula.agreeUnder`, `Formula.agreeFrom` — equality of the values under one assignment, and under
  this one and all that are tried after it
* `Formula.equivalent` — equality of the values under all assignments of the variables

## Main results

* `Odometer.turnsLeft_of_next` — every turn brings the end nearer
-/

namespace PrimeForm

namespace Odometer

/-- The wheels after one turn, `none` if all of them fall back. -/
def next : List Bool → Option (List Bool)
  | [] => none
  | false :: wheels => some (true :: wheels)
  | true :: wheels => (next wheels).map (false :: ·)

/-- The number of turns until all wheels stand at `true`. A wheel turns half as often as the one in
front of it. -/
def turnsLeft : List Bool → Nat
  | [] => 0
  | wheel :: wheels => (!wheel).toNat + 2 * turnsLeft wheels

theorem turnsLeft_of_next {wheels wheels' : List Bool} (h : next wheels = some wheels') :
    turnsLeft wheels = turnsLeft wheels' + 1 := by
  induction wheels generalizing wheels' with
  | nil => cases h
  | cons wheel wheels ih =>
    cases wheel with
    | false =>
      cases h
      simp [turnsLeft, Nat.add_comm]
    | true =>
      obtain ⟨rest, hrest, rfl⟩ := Option.map_eq_some_iff.mp h
      simp only [turnsLeft, Bool.not_true, Bool.not_false, Bool.toNat_false, Bool.toNat_true,
        ih hrest]
      omega

end Odometer

namespace Formula

/-- Do two formulas have equal values under an assignment? A formula without a value is equal to
none. -/
def agreeUnder (φ ψ : Formula) (σ : Assignment) : Bool :=
  match φ.eval σ, ψ.eval σ with
  | .ok a, .ok b => a == b
  | _, _ => false

/-- Do two formulas have equal values under the assignment of the wheels to the names, and under
all assignments that follow as the wheels turn? The first difference ends the search. -/
def agreeFrom (φ ψ : Formula) (names : List Char) (wheels : List Bool) : Bool :=
  agreeUnder φ ψ (.ofBits names wheels) &&
    match _h : Odometer.next wheels with
    | none => true
    | some wheels' => agreeFrom φ ψ names wheels'
termination_by Odometer.turnsLeft wheels
decreasing_by
  rw [Odometer.turnsLeft_of_next _h]
  exact Nat.lt_succ_self _

/-- Do two formulas have equal values under all assignments of the variables of both? The
alphabetically first variable changes fastest. -/
def equivalent (φ ψ : Formula) : Bool :=
  let names := ascending (φ.names ++ ψ.names)
  agreeFrom φ ψ names (names.map fun _ => false)

theorem agreeUnder_iff {φ ψ : Formula} {σ : Assignment} :
    agreeUnder φ ψ σ = true ↔ ∃ b, φ.eval σ = .ok b ∧ ψ.eval σ = .ok b := by
  rw [agreeUnder]
  cases φ.eval σ with
  | error e => simp
  | ok a =>
    cases ψ.eval σ with
    | error e => simp
    | ok b => cases a <;> cases b <;> simp

end Formula

end PrimeForm
