import Mathlib.Data.List.Forall2

/-!
# Outcomes of computations that may fail

When a computation made of several steps succeeds, each of its steps has succeeded, and when it
fails, one of them has failed.

## Main results

* `bind_eq_ok_iff`, `map_eq_ok_iff`, `mapError_eq_ok_iff` — success of one step after another
* `bind_eq_error_iff`, `map_eq_error_iff`, `mapError_eq_error_iff` — failure of one step after
  another
* `find?_zipIdx_eq_some_iff` — the place at which a check of one character after another fails
-/

namespace PrimeForm

variable {ε ε' α β : Type} {x : Except ε α}

theorem bind_eq_ok_iff {f : α → Except ε β} {b : β} :
    x >>= f = .ok b ↔ ∃ a, x = .ok a ∧ f a = .ok b := by
  cases x <;> simp [bind, Except.bind]

theorem bind_eq_error_iff {f : α → Except ε β} {e : ε} :
    x >>= f = .error e ↔ x = .error e ∨ ∃ a, x = .ok a ∧ f a = .error e := by
  cases x <;> simp [bind, Except.bind]

theorem map_eq_ok_iff {f : α → β} {b : β} : x.map f = .ok b ↔ ∃ a, x = .ok a ∧ f a = b := by
  cases x <;> simp [Except.map]

theorem map_eq_error_iff {f : α → β} {e : ε} : x.map f = .error e ↔ x = .error e := by
  cases x <;> simp [Except.map]

theorem mapError_eq_ok_iff {f : ε → ε'} {a : α} : x.mapError f = .ok a ↔ x = .ok a := by
  cases x <;> simp [Except.mapError]

theorem mapError_eq_error_iff {f : ε → ε'} {e : ε'} :
    x.mapError f = .error e ↔ ∃ e', x = .error e' ∧ f e' = e := by
  cases x <;> simp [Except.mapError]

/-- The first character of a kind in a text, with its position. -/
theorem find?_zipIdx_eq_some_iff {q : Char → Bool} {cs : List Char} {c : Char} {i : Nat} :
    cs.zipIdx.find? (fun mark => q mark.1) = some (c, i) ↔
      ∃ before after, cs = before ++ c :: after ∧ i = before.length ∧
        (∀ c' ∈ before, q c' = false) ∧ q c = true := by
  rw [List.find?_eq_some_iff_append]
  constructor
  · rintro ⟨hc, marks, rest, hsplit, hbefore⟩
    obtain ⟨before, cs', rfl, rfl, hrest⟩ := List.zipIdx_eq_append_iff.mp hsplit
    obtain ⟨d, after, rfl, hd, -⟩ := List.zipIdx_eq_cons_iff.mp hrest.symm
    obtain ⟨rfl, rfl⟩ := Prod.mk.inj hd
    refine ⟨before, after, rfl, Nat.zero_add _, fun c' hc' => ?_, hc⟩
    obtain ⟨j, hj⟩ := List.mem_iff_getElem?.mp hc'
    simpa using hbefore _ (List.mk_mem_zipIdx_iff_getElem?.mpr hj)
  · rintro ⟨before, after, rfl, rfl, hbefore, hc⟩
    refine ⟨hc, before.zipIdx, after.zipIdx (before.length + 1), ?_, fun mark hmark => ?_⟩
    · rw [List.zipIdx_append, List.zipIdx_cons, Nat.zero_add]
    · simp [hbefore _ (List.mem_of_getElem? (List.mem_zipIdx_iff_getElem?.mp hmark))]

end PrimeForm
