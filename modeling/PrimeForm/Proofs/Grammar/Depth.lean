import PrimeForm.Proofs.Formula.Recursion
import PrimeForm.Proofs.Grammar.Reading

/-!
# The depth of what is read

The reader limits how many rules of the grammar are open at one time, and not how deep the formula
is that it returns. But every node of the formula opens a rule of its own, with one exception: the
negation of a letter is read within the rule of the letter. This happens once on a branch, at its
end. So a formula that has been read is deeper than the limit by one node at most, and it can be, at
every limit. Nothing else has to guard the recursions over such a formula.

## Main results

* `Derivation.depth_placed_le` — the depth of a formula and the levels of its derivation
* `Derivation.exists_depth_placed_eq` — the bound is attained
* `depth_le_of_parse` — the depth of what is read, and the calls that are open at one time when it
  is evaluated, folded or written
-/

namespace PrimeForm

theorem Formula.depth_negateIf (negated : Bool) (φ : Formula) :
    (negateIf negated φ).depth = φ.depth + negated.toNat := by
  cases negated <;> rfl

namespace Derivation

variable {k : Category}

/-- Only a factor can do without a rule of its own. -/
theorem levels_pos (d : Derivation k) (hk : k ≠ .factor) : 0 < d.levels := by
  cases d with
  | ofConjunction d | ofFactor d => exact Nat.succ_pos _
  | loose d op hop e => exact Nat.succ_pos _
  | tight d e => exact Nat.succ_pos _
  | letter negated x hx | digit negated b | group negated d => exact absurd rfl hk

/-- A formula has one level more than its derivation at most. A negated letter, which opens no rule,
counts as if it opened one. -/
theorem depth_placed_le (d : Derivation k) (p : Nat) :
    (d.placed p).depth ≤ max 1 d.levels + 1 := by
  induction d generalizing p with
  | ofConjunction d ih | ofFactor d ih =>
    have hinner := ih p
    simp only [placed, levels]
    omega
  | loose d op hop e ihd ihe | tight d e ihd ihe =>
    -- The connective opens a rule on top of at least one that its right operand opens.
    have hright := e.levels_pos (by decide)
    have hleft := ihd p
    have hinner := ihe (p + d.chars.length + 1)
    simp only [placed, Formula.depth, levels]
    omega
  | letter negated x hx =>
    have hnegated := negated.toNat_le
    rw [placed, Formula.depth_negateIf, Formula.depth, levels]
    omega
  | digit negated b => exact Nat.le_succ 1
  | group negated d ih =>
    have hnegated := negated.toNat_le
    have hinside := d.levels_pos (by decide)
    have hinner := ih (p + negated.toNat + 1)
    rw [placed, Formula.depth_negateIf, levels]
    omega

/-! ### Deepest formulas -/

/-- A conjunction of letters of which the last one is negated. -/
def letters : Nat → Derivation .conjunction
  | 0 => .ofFactor (.letter true 'a' rfl)
  | n + 1 => .tight (.letter false 'a' rfl) (letters n)

theorem levels_letters (n : Nat) : (letters n).levels = n + 1 := by
  induction n with
  | zero => rfl
  | succ n ih => rw [letters, levels, levels, ih, Nat.zero_max]

theorem depth_placed_letters (n p : Nat) : ((letters n).placed p).depth = n + 2 := by
  induction n generalizing p with
  | zero => rfl
  | succ n ih =>
    rw [letters, placed, Formula.depth, ih, placed, Formula.depth_negateIf, Formula.depth]
    simp only [Bool.toNat_false]
    omega

/-- Any number of levels from three on allows for one node more. -/
theorem exists_depth_placed_eq {n : Nat} (hn : 3 ≤ n) :
    ∃ d : Derivation .expression, d.levels = n ∧ ∀ p, (d.placed p).depth = n + 1 := by
  -- The conjunction stands on the left, where it costs the level of the connective only.
  refine ⟨.loose (letters (n - 2)) .or rfl (.ofConjunction (.ofFactor (.letter false 'a' rfl))),
    ?_, fun p => ?_⟩
  · simp only [levels, levels_letters]
    omega
  · simp only [placed, Formula.depth, depth_placed_letters, Formula.depth_negateIf,
      Bool.toNat_false]
    omega

end Derivation

namespace Formula

variable {φ : Formula} {s : String}

theorem depth_le_succ_of_parse (h : parse s = .ok φ) : φ.depth ≤ maxNesting + 1 := by
  obtain ⟨d, -, hlevels, rfl⟩ := parse_eq_ok_iff.mp h
  have hdepth := d.depth_placed_le 0
  have hlimit : 1 ≤ maxNesting := by decide
  omega

/-- A formula that has been read from a text is deeper than the limit of the reader by one node at
most. So when it is evaluated, with or without its text being written, or folded, or written, no
more calls than that are open at one time. -/
theorem depth_le_of_parse (h : parse s = .ok φ) :
    φ.depth ≤ maxNesting + 1 ∧
      (∀ σ, recurseWithin (solveStep σ) (maxNesting + 1) φ = some (φ.solve σ)) ∧
      (∀ (α : Type) (f : Node α → α),
        recurseWithin (foldStep f) (maxNesting + 1) φ = some (φ.fold f)) ∧
      recurseWithin writeStep (maxNesting + 1) φ = some φ.write := by
  have hdepth := depth_le_succ_of_parse h
  have hwithin {α : Type} (step : Node (Formula × α) → α) :
      recurseWithin step (maxNesting + 1) φ = some (φ.recurse step) := by
    rw [recurseWithin_eq, if_pos hdepth]
  refine ⟨hdepth, fun σ => ?_, fun α f => ?_, ?_⟩
  · rw [solve_eq_recurse, hwithin]
  · rw [fold_eq_recurse, hwithin]
  · rw [write_eq_recurse, hwithin]

/-- There is a text whose formula has this depth. -/
theorem depth_le_of_parse_deepest : ∃ s φ, parse s = .ok φ ∧ φ.depth = maxNesting + 1 := by
  obtain ⟨d, hlevels, hdepth⟩ := Derivation.exists_depth_placed_eq (n := maxNesting) (by decide)
  have hparse : parse (String.ofList d.chars) = .ok (d.placed 0) :=
    parse_eq_ok_iff.mpr ⟨d, String.toList_ofList.symm, Nat.le_of_eq hlevels, rfl⟩
  have hbound := (depth_le_of_parse hparse).1
  exact ⟨_, _, hparse, Nat.le_antisymm hbound (Nat.le_of_eq (hdepth 0).symm)⟩

end Formula

end PrimeForm
