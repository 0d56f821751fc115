/-!
# Minterms

The rows of a truth table are numbered by 64-bit words. The bits of a row's number, most
significant first, are the values of the variables in that row.

## Main definitions

* `Minterm` — the number of a row
* `indexBits` — the bits of a number, for a given width
* `rowsOver`, `rowCount?` — the number of rows, the latter as long as a word can hold it

## Main results

* `length_indexBits`, `getElem?_indexBits` — how many bits there are, and which
* `indexBits_inj`, `exists_indexBits_eq` — the bits of the rows are all vectors, each once
-/

namespace PrimeForm

/-- The number of a row of a truth table. -/
abbrev Minterm := UInt64

/-- The lowest `width` bits of a number, most significant first. -/
def indexBits (index : Nat) : (width : Nat) → List Bool
  | 0 => []
  | width + 1 => index.testBit width :: indexBits index width

/-- The number of rows over `n` variables; every variable doubles it. -/
def rowsOver (n : Nat) : Nat := Nat.pow 2 n

/-- The number of rows over `n` variables, `none` if it exceeds the words. -/
def rowCount? (n : Nat) : Option Nat := if n < 64 then some (rowsOver n) else none

@[simp] theorem rowsOver_zero : rowsOver 0 = 1 := rfl

theorem rowsOver_succ (n : Nat) : rowsOver (n + 1) = rowsOver n * 2 := rfl

theorem rowsOver_pos (n : Nat) : 0 < rowsOver n := Nat.two_pow_pos n

@[simp] theorem length_indexBits (index width : Nat) : (indexBits index width).length = width := by
  induction width with
  | zero => rfl
  | succ width ih => simp [indexBits, ih]

theorem getElem?_indexBits {index width i : Nat} (h : i < width) :
    (indexBits index width)[i]? = some (index.testBit (width - 1 - i)) := by
  induction width generalizing i with
  | zero => omega
  | succ width ih =>
    cases i with
    | zero => simp [indexBits]
    | succ i =>
      simp only [indexBits, List.getElem?_cons_succ]
      rw [ih (by omega)]
      congr 2
      omega

/-- Rows over the same variables are told apart by their bits. -/
theorem indexBits_inj {i j width : Nat} (hi : i < rowsOver width) (hj : j < rowsOver width) :
    indexBits i width = indexBits j width ↔ i = j := by
  constructor
  · intro h
    apply Nat.eq_of_testBit_eq
    intro k
    by_cases hk : k < width
    · have hbit := congrArg (fun bits => bits[width - 1 - k]?) h
      simp only [getElem?_indexBits (show width - 1 - k < width by omega),
        Option.some.injEq] at hbit
      rwa [show width - 1 - (width - 1 - k) = k by omega] at hbit
    · -- Beyond the width both numbers have no bits left.
      have hle : rowsOver width ≤ 2 ^ k := Nat.pow_le_pow_right (by decide) (by omega)
      rw [Nat.testBit_lt_two_pow (Nat.lt_of_lt_of_le hi hle),
        Nat.testBit_lt_two_pow (Nat.lt_of_lt_of_le hj hle)]
  · rintro rfl
    rfl

theorem indexBits_congr {i j width : Nat} (h : ∀ k < width, i.testBit k = j.testBit k) :
    indexBits i width = indexBits j width := by
  induction width with
  | zero => rfl
  | succ width ih =>
    rw [indexBits, indexBits, h width (by omega), ih fun k hk => h k (by omega)]

/-- Every vector of truth values is the bits of a row. -/
theorem exists_indexBits_eq (v : List Bool) :
    ∃ i < rowsOver v.length, indexBits i v.length = v := by
  induction v with
  | nil => exact ⟨0, by decide, rfl⟩
  | cons b v ih =>
    obtain ⟨i, hi, hbits⟩ := ih
    have hbit (k : Nat) : (rowsOver v.length * b.toNat + i).testBit k =
        if k < v.length then i.testBit k else b.toNat.testBit (k - v.length) :=
      Nat.testBit_two_pow_mul_add b.toNat hi k
    refine ⟨rowsOver v.length * b.toNat + i, ?_, ?_⟩
    · rw [List.length_cons, rowsOver_succ]
      cases b <;> simp <;> omega
    · rw [List.length_cons, indexBits, hbit, if_neg (Nat.lt_irrefl _), Nat.sub_self]
      have hlow : indexBits (rowsOver v.length * b.toNat + i) v.length = indexBits i v.length :=
        indexBits_congr fun k hk => by rw [hbit, if_pos hk]
      rw [hlow, hbits]
      cases b <;> rfl

end PrimeForm
