import Mathlib.Algebra.Ring.Parity
import Mathlib.Data.Nat.Bits
import PrimeForm.Proofs.Simplification

/-!
# Sums without mergers

Terms merge when they differ in one position. Where no true point becomes another one by a change
of one of its values, nothing merges, and every row remains a product of the simplified form. The
rows in which an odd number of variables are true are of this kind. They are half of all rows, so
the number of products doubles with every variable.

## Main definitions

* `Isolated` — no point is a neighbour of another one
* `parityRows` — the rows in which an odd number of variables are true

## Main results

* `Isolated.isPrimeImplicant` — isolated points are prime implicants
* `Simplified.length_distinctRows_le` — isolated rows all remain as products
* `exists_simplify_parityRows` — parity has a product for every second row
-/

namespace PrimeForm

variable {points : Set (List Bool)} {v : List Bool} {names : List Char} {ms : List Minterm}
  {sum : SumOfProducts} {n i : Nat}

/-! ### Isolated points -/

/-- No point becomes another one by a change of one of its values. -/
def Isolated (points : Set (List Bool)) : Prop :=
  ∀ v ∈ points, ∀ (i : Nat) (b : Bool), v[i]? = some b → v.set i (!b) ∉ points

/-- The term of an isolated point cannot be opened anywhere. -/
theorem Isolated.isPrimeImplicant (h : Isolated points) (hv : v ∈ points) :
    (⟨v.map some⟩ : Term).IsPrimeImplicant points := by
  refine ⟨fun w hw => Term.admits_map_some_iff.mp hw ▸ hv, fun i b hi hopen => ?_⟩
  have hflip := (Term.isImplicant_withBit_none_iff (Term.lt_width_of_getElem? hi)).mp hopen (!b)
  rw [Term.withBit, ← List.map_set] at hflip
  have hbit : v[i]? = some b := by simpa using hi
  exact h v hv i b hbit (hflip _ (Term.admits_map_some_iff.mpr rfl))

/-- If the rows are isolated from each other, each of them is a product of the simplified form. -/
theorem Simplified.length_distinctRows_le (h : Simplified names ms sum)
    (hrange : InRange names.length ms) (hnames : names ≠ [])
    (hisolated : Isolated (truePoints names.length ms)) :
    (distinctRows ms).length ≤ sum.terms.length := by
  cases h with
  | empty hms => subst hms; exact Nat.le_refl 0
  | full _ _ hfull =>
    -- In a full set every point has a neighbour, as soon as there is a variable to change.
    have hzeros := hfull (List.replicate names.length false) (List.length_replicate ..)
    have hfirst : (List.replicate names.length false)[0]? = some false := by
      rw [List.getElem?_replicate, if_pos (List.length_pos_iff.mpr hnames)]
    exact absurd (hfull _ (by simp)) (hisolated _ hzeros 0 false hfirst)
  | @primes _ _ ts _ hmem =>
    have hsub : rowTerms names.length ms ⊆ ts := by
      intro t ht
      obtain ⟨m, hm, rfl⟩ := List.mem_map.mp ht
      refine (hmem _).mpr ⟨by simp [Term.ofMinterm, Term.width], hisolated.isPrimeImplicant ?_⟩
      exact ⟨m, mem_distinctRows.mp hm, rfl⟩
    have hle := (List.subperm_of_subset (isLevel_rowTerms hrange).nodup hsub).length_le
    rwa [rowTerms, List.length_map] at hle

/-! ### Parity -/

/-- A change of one value changes the parity of the number of ones. -/
theorem odd_count_set_not {b : Bool} (h : v[i]? = some b) :
    Odd ((v.set i (!b)).count true) ↔ ¬ Odd (v.count true) := by
  induction v generalizing i with
  | nil => cases h
  | cons a v ih =>
    cases i with
    | zero =>
      obtain rfl : a = b := Option.some.inj h
      cases a <;> simp [Nat.odd_add_one]
    | succ i =>
      have hrest := ih h
      cases a <;> simp [Nat.odd_add_one, hrest]

theorem isolated_of_odd (h : ∀ v ∈ points, Odd (v.count true)) : Isolated points :=
  fun v hv _ _ hi hset => (odd_count_set_not hi).mp (h _ hset) (h v hv)

/-- The value that makes the number of ones odd when it is written behind the others. -/
def parityBit (v : List Bool) : Bool := decide (Even (v.count true))

/-- The row over `n + 1` variables that continues a row over `n` variables to an odd number of
ones. -/
def parityRow (n i : Nat) : Minterm := UInt64.ofNat (Nat.bit (parityBit (indexBits i n)) i)

/-- All rows over `n + 1` variables in which an odd number of them are true. -/
def parityRows (n : Nat) : List Minterm := (List.range (rowsOver n)).map (parityRow n)

theorem odd_count_append_parityBit (v : List Bool) : Odd ((v ++ [parityBit v]).count true) := by
  rw [List.count_append, parityBit]
  by_cases h : Even (v.count true)
  · rw [decide_eq_true h]
    exact h.add_one
  · rw [decide_eq_false h]
    exact Nat.not_even_iff_odd.mp h

theorem indexBits_bit (b : Bool) (i n : Nat) :
    indexBits (Nat.bit b i) (n + 1) = indexBits i n ++ [b] := by
  induction n with
  | zero => exact congrArg (fun c => [c]) (Nat.testBit_bit_zero b i)
  | succ n ih => rw [indexBits, Nat.testBit_bit_succ, ih]; rfl

section Words

variable (hn : n < 64)
include hn

/-- A word has room for a row over one more variable. -/
theorem toNat_parityRow (hi : i < rowsOver n) :
    (parityRow n i).toNat = Nat.bit (parityBit (indexBits i n)) i ∧
      (parityRow n i).toNat < rowsOver (n + 1) := by
  have hrow : Nat.bit (parityBit (indexBits i n)) i < rowsOver (n + 1) :=
    Nat.bit_lt_two_pow_succ_iff.mpr hi
  have hword : rowsOver (n + 1) ≤ 2 ^ 64 := Nat.pow_le_pow_right (by decide) hn
  have htoNat := UInt64.toNat_ofNat_of_lt' (Nat.lt_of_lt_of_le hrow hword)
  exact ⟨htoNat, Nat.lt_of_le_of_lt (Nat.le_of_eq htoNat) hrow⟩

theorem indexBits_parityRow (hi : i < rowsOver n) :
    indexBits (parityRow n i).toNat (n + 1) = indexBits i n ++ [parityBit (indexBits i n)] := by
  rw [(toNat_parityRow hn hi).1, indexBits_bit]

theorem nodup_parityRows : (parityRows n).Nodup := by
  refine List.Nodup.map_on (fun i hi j hj h => ?_) List.nodup_range
  rw [List.mem_range] at hi hj
  have hbits := congrArg (fun m => indexBits m.toNat (n + 1)) h
  simp only [indexBits_parityRow hn hi, indexBits_parityRow hn hj] at hbits
  exact (indexBits_inj hi hj).mp (List.append_inj_left hbits (by simp))

theorem inRange_parityRows : InRange (n + 1) (parityRows n) := by
  intro m hm
  obtain ⟨i, hi, rfl⟩ := List.mem_map.mp hm
  exact (toNat_parityRow hn (List.mem_range.mp hi)).2

theorem isolated_parityRows : Isolated (truePoints (n + 1) (parityRows n)) := by
  refine isolated_of_odd fun v ⟨m, hm, hv⟩ => ?_
  obtain ⟨i, hi, rfl⟩ := List.mem_map.mp hm
  rw [← hv, indexBits_parityRow hn (List.mem_range.mp hi)]
  exact odd_count_append_parityBit _

/-- Over `n + 1` variables, the rows in which an odd number of them are true simplify to a sum with
at least as many products as there are such rows. -/
theorem exists_simplify_parityRows (hnames : names.length = n + 1) :
    ∃ sum, SumOfProducts.simplify names (parityRows n) = .ok sum ∧
      rowsOver n ≤ sum.terms.length := by
  have hrange : InRange names.length (parityRows n) := hnames ▸ inRange_parityRows hn
  have hisolated : Isolated (truePoints names.length (parityRows n)) :=
    hnames ▸ isolated_parityRows hn
  have hne : names ≠ [] := List.ne_nil_of_length_pos (by omega)
  obtain ⟨sum, hsum⟩ := exists_simplify_eq_ok hrange
  refine ⟨sum, hsum, ?_⟩
  have hperm : (distinctRows (parityRows n)).Perm (parityRows n) :=
    (List.perm_ext_iff_of_nodup (nodup_distinctRows _) (nodup_parityRows hn)).mpr
      fun _ => mem_distinctRows
  calc rowsOver n
    _ = (parityRows n).length := by rw [parityRows, List.length_map, List.length_range]
    _ = (distinctRows (parityRows n)).length := hperm.length_eq.symm
    _ ≤ sum.terms.length :=
      (simplify_eq_ok_iff.mp hsum).2.length_distinctRows_le hrange hne hisolated

end Words

end PrimeForm
