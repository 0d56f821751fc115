import PrimeForm.Proofs.Formula.Value

/-!
# Evaluation and truth

Evaluation gives a truth value exactly when the assignment covers all variables of the formula, and
this value says whether the formula holds. With a gap in the assignment, the first mention of a
variable that falls into the gap is reported, no matter what the values of the other variables are.
Writing the text along the way changes neither the value nor the error, and the text shows nothing
of the assignment.

## Main definitions

* `Connective.Joins`, `Formula.Holds` — formulas as propositions about an assignment

## Main results

* `Formula.eval_eq_ok_iff` — the value of a formula
* `Formula.eval_eq_error_iff_exists_mention` — the variable that is reported
* `Formula.eval_outcome` — evaluation with and without the text
-/

namespace PrimeForm

/-- What a connective says of two propositions. -/
def Connective.Joins : Connective → Prop → Prop → Prop
  | or, P, Q => P ∨ Q
  | xor, P, Q => (P ∧ ¬ Q) ∨ (¬ P ∧ Q)
  | and, P, Q => P ∧ Q
  | imply, P, Q => P → Q

theorem Connective.apply_eq_true_iff {op : Connective} {a b : Bool} :
    op.apply a b = true ↔ op.Joins (a = true) (b = true) := by
  cases op <;> cases a <;> cases b <;> simp [apply, Joins]

namespace Formula

variable {φ : Formula} {σ τ : Assignment} {b : Bool} {e : EvaluationError} {t : String}

/-- The formula is true under the assignment. A variable without a value is not true. -/
def Holds (σ : Assignment) : Formula → Prop
  | var x _ => σ.value? x = some true
  | literal b => b = true
  | neg φ => ¬ φ.Holds σ
  | binary op φ ψ _ => op.Joins (φ.Holds σ) (ψ.Holds σ)

/-! ### The value -/

/-- The value that evaluation gives says whether the formula holds. -/
theorem eq_true_iff_holds_of_eval (h : φ.eval σ = .ok b) : b = true ↔ φ.Holds σ := by
  induction φ generalizing b with
  | var x p =>
    rw [eval_var] at h
    split at h
    · rename_i a ha
      rw [Holds, ha, Option.some.injEq, Except.ok.inj h]
    · cases h
  | literal a =>
    cases h
    exact Iff.rfl
  | neg φ ih =>
    rw [eval_neg] at h
    obtain ⟨a, ha, hb⟩ := bind_eq_ok_iff.mp h
    rw [Holds, ← ih ha, ← Except.ok.inj hb, Bool.not_eq_true', Bool.not_eq_true]
  | binary op φ ψ p ihφ ihψ =>
    rw [eval_binary] at h
    obtain ⟨a, ha, hrest⟩ := bind_eq_ok_iff.mp h
    obtain ⟨c, hc, hb⟩ := bind_eq_ok_iff.mp hrest
    rw [Holds, ← Except.ok.inj hb, Connective.apply_eq_true_iff, ihφ ha, ihψ hc]

/-- Evaluation succeeds exactly when every variable has a value. -/
theorem exists_eval_eq_ok_iff :
    (∃ b, φ.eval σ = .ok b) ↔ ∀ x ∈ φ.names, (σ.value? x).isSome = true := by
  rw [← firstUnassigned_eq_none_iff]
  constructor
  · rintro ⟨b, hb⟩
    by_contra hgap
    obtain ⟨x, hx⟩ := Option.ne_none_iff_exists'.mp hgap
    rw [eval_eq_error_of_firstUnassigned hx] at hb
    cases hb
  · intro hnone
    exact ⟨_, eval_eq_ok_of_isSome (firstUnassigned_eq_none_iff.mp hnone)⟩

/-- The value of a formula whose variables all have one. -/
theorem eval_eq_ok_iff :
    φ.eval σ = .ok b ↔
      (∀ x ∈ φ.names, (σ.value? x).isSome = true) ∧ (b = true ↔ φ.Holds σ) := by
  constructor
  · intro h
    exact ⟨exists_eval_eq_ok_iff.mp ⟨b, h⟩, eq_true_iff_holds_of_eval h⟩
  · rintro ⟨hnames, hb⟩
    obtain ⟨a, ha⟩ := exists_eval_eq_ok_iff.mpr hnames
    have hab : a = b := by rw [Bool.eq_iff_iff, hb, eq_true_iff_holds_of_eval ha]
    rw [ha, hab]

/-! ### The error -/

/-- The reported variable is the one of the first mention that has no value. -/
theorem eval_eq_error_iff_exists_mention :
    φ.eval σ = .error e ↔
      ∃ before x p after, φ.occurrences = before ++ (x, p) :: after ∧
        (∀ mention ∈ before, (σ.value? mention.1).isSome = true) ∧
        σ.value? x = none ∧ e = .unassigned x := by
  rw [eval_eq_error_iff]
  simp only [firstUnassigned, List.find?_map, Option.map_eq_some_iff,
    List.find?_eq_some_iff_append, Prod.exists]
  constructor
  · rintro ⟨_, ⟨x, p, ⟨hgap, before, after, hsplit, hbefore⟩, rfl⟩, rfl⟩
    refine ⟨before, x, p, after, hsplit, fun mention hmention => ?_, by simpa using hgap, rfl⟩
    simpa [Option.isSome_iff_ne_none] using hbefore mention hmention
  · rintro ⟨before, x, p, after, hsplit, hbefore, hgap, rfl⟩
    refine ⟨x, ⟨x, p, ⟨by simpa using hgap, before, after, hsplit, ?_⟩, rfl⟩, rfl⟩
    intro mention hmention
    simpa [Option.isSome_iff_ne_none] using hbefore mention hmention

/-- The error does not depend on the values that the variables have. -/
theorem eval_eq_error_congr (h : ∀ x, (σ.value? x).isSome = (τ.value? x).isSome) :
    φ.eval σ = .error e ↔ φ.eval τ = .error e := by
  have hfirst : φ.firstUnassigned σ = φ.firstUnassigned τ := by
    have hgap : (fun x => (σ.value? x).isNone) = fun x => (τ.value? x).isNone := by
      funext x
      rw [← Option.not_isSome, h, Option.not_isSome]
    rw [firstUnassigned, hgap]
    rfl
  rw [eval_eq_error_iff, eval_eq_error_iff, hfirst]

/-! ### The text -/

/-- Writing the text does not change the value or the error. -/
theorem map_fst_evalTraced : (φ.evalTraced σ).map Prod.fst = φ.eval σ := by
  rw [evalTraced_eq]
  cases φ.eval σ <;> rfl

theorem eq_explicitText_of_evalTraced (h : φ.evalTraced σ = .ok (b, t)) : t = φ.explicitText := by
  rw [evalTraced_eq] at h
  obtain ⟨c, -, hc⟩ := map_eq_ok_iff.mp h
  exact (congrArg Prod.snd hc).symm

/-- Evaluation succeeds exactly when every variable of the formula has a value, and then tells
whether the formula holds. Otherwise it reports the variable of the first mention without a value,
whatever values the others have. With the text written along the way, value and error are the same,
and the text is the same under all assignments under which there is one. -/
theorem eval_outcome (φ : Formula) (σ : Assignment) :
    ((∃ b, φ.eval σ = .ok b) ↔ ∀ x ∈ φ.names, (σ.value? x).isSome = true) ∧
    (∀ b, φ.eval σ = .ok b ↔
      (∀ x ∈ φ.names, (σ.value? x).isSome = true) ∧ (b = true ↔ φ.Holds σ)) ∧
    (∀ e, φ.eval σ = .error e ↔
      ∃ before x p after, φ.occurrences = before ++ (x, p) :: after ∧
        (∀ mention ∈ before, (σ.value? mention.1).isSome = true) ∧
        σ.value? x = none ∧ e = .unassigned x) ∧
    (∀ τ : Assignment, (∀ x, (σ.value? x).isSome = (τ.value? x).isSome) →
      ∀ e, φ.eval σ = .error e ↔ φ.eval τ = .error e) ∧
    (φ.evalTraced σ).map Prod.fst = φ.eval σ ∧
    ∀ τ a b t u, φ.evalTraced σ = .ok (a, t) → φ.evalTraced τ = .ok (b, u) → t = u := by
  refine ⟨exists_eval_eq_ok_iff, fun b => eval_eq_ok_iff,
    fun e => eval_eq_error_iff_exists_mention, fun τ h e => eval_eq_error_congr h,
    map_fst_evalTraced, fun τ a b t u ht hu => ?_⟩
  rw [eq_explicitText_of_evalTraced ht, eq_explicitText_of_evalTraced hu]

/-- The left operand decides the value of an implication, and the right one is reported. -/
theorem eval_outcome_implication :
    (binary .imply (.var 'a' 0) (.var 'b' 2) 1).eval (.set .empty 'a' false) =
      .error (.unassigned 'b') :=
  ((eval_outcome _ _).2.2.1 _).mpr
    ⟨[('a', 0)], 'b', 2, [], rfl, by simp, by simp [Assignment.value?_set], rfl⟩

end Formula

end PrimeForm
