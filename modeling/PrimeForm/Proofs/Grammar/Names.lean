import PrimeForm.Proofs.Formula.Variables
import PrimeForm.Proofs.Grammar.Marks

/-!
# The variables of a text

The variables of a formula are listed unless one of them is no lowercase letter. The first mention
of such a variable is reported, and in a text that is read as a formula this is the first capital
letter.

## Main results

* `Formula.sortedNames_eq_error_iff` — the mention of a variable that is reported
* `Formula.sortedNames_eq_error_iff_of_parse` — the letter of a text that is reported
* `Formula.sortedNames_outcome` — the list of variables, or the reason why there is none
-/

namespace PrimeForm

/-! ### Capital letters -/

theorem isLower_eq_false_of_isUpper {c : Char} (h : c.isUpper = true) : c.isLower = false := by
  have hlast : c.val ≤ 'Z'.val := (of_decide_eq_true h).2
  have hfirst : ¬ 'a'.val ≤ c.val := UInt32.not_le.mpr (UInt32.lt_of_le_of_lt hlast (by decide))
  exact Bool.eq_false_iff.mpr fun hlower =>
    hfirst (of_decide_eq_true (Bool.and_eq_true_iff.mp hlower).1)

/-- The capitals are the letters that are not lowercase. -/
theorem isUpper_iff {c : Char} : c.isUpper = true ↔ c.isAlpha = true ∧ c.isLower = false := by
  change c.isUpper = true ↔ (c.isUpper || c.isLower) = true ∧ c.isLower = false
  cases hupper : c.isUpper with
  | true => simp [isLower_eq_false_of_isUpper hupper]
  | false => simp

namespace Formula

variable {φ : Formula} {s : String} {e : NameError} {names : List Char}

/-! ### The mention that is reported -/

theorem sortedNames_eq_error_iff_find? :
    φ.sortedNames = .error e ↔
      φ.occurrences.find? (fun mention => !mention.1.isLower) = some (e.name, e.position) := by
  obtain ⟨x, p⟩ := e
  rw [sortedNames]
  split
  · rename_i y q hfind
    simp [hfind]
  · rename_i hfind
    simp [hfind]

/-- The reported mention is the first one of a variable that is no lowercase letter. -/
theorem sortedNames_eq_error_iff :
    φ.sortedNames = .error e ↔
      ∃ before after, φ.occurrences = before ++ (e.name, e.position) :: after ∧
        (∀ mention ∈ before, mention.1.isLower = true) ∧ e.name.isLower = false := by
  rw [sortedNames_eq_error_iff_find?, List.find?_eq_some_iff_append]
  simp only [Bool.not_eq_true', Bool.not_not, and_comm, exists_and_left, and_left_comm]

/-- The variables are not listed if one of them is no lowercase letter. -/
theorem exists_sortedNames_eq_error_iff :
    (∃ e, φ.sortedNames = .error e) ↔ ∃ x ∈ φ.names, x.isLower = false := by
  have hok : (∀ x ∈ φ.names, x.isLower = true) ↔ ∃ names, φ.sortedNames = .ok names := by
    simp [sortedNames_eq_ok_iff]
  cases hnames : φ.sortedNames with
  | error e => simpa [hnames] using hok
  | ok names => simpa [hnames] using hok

/-- Listed variables ascend strictly, are those of the formula, and are not more than the alphabet
has letters. -/
theorem pairwise_of_sortedNames (h : φ.sortedNames = .ok names) :
    names.Pairwise (· < ·) ∧ (∀ x, x ∈ names ↔ x ∈ φ.names) ∧ names.length ≤ 26 := by
  have hascending : names.Pairwise (· < ·) :=
    (pairwise_compare_of_sortedNames h).imp compareOfLessAndEq_eq_lt.mp
  exact ⟨hascending, fun x => mem_of_sortedNames h, length_le_of_sortedNames h⟩

/-! ### The letter that is reported -/

/-- The variables of a text that is read are listed unless the text contains a capital. -/
theorem exists_sortedNames_eq_error_iff_of_parse (h : parse s = .ok φ) :
    (∃ e, φ.sortedNames = .error e) ↔ ∃ c ∈ s.toList, c.isUpper = true := by
  rw [exists_sortedNames_eq_error_iff]
  constructor
  · rintro ⟨x, hx, hlower⟩
    obtain ⟨hmem, hletter⟩ := (mem_names_of_parse_iff h).mp hx
    exact ⟨x, hmem, isUpper_iff.mpr ⟨hletter, hlower⟩⟩
  · rintro ⟨c, hc, hupper⟩
    obtain ⟨hletter, hlower⟩ := isUpper_iff.mp hupper
    exact ⟨c, (mem_names_of_parse_iff h).mpr ⟨hc, hletter⟩, hlower⟩

/-- The reported letter is the first capital of the text. -/
theorem sortedNames_eq_error_iff_of_parse (h : parse s = .ok φ) :
    φ.sortedNames = .error e ↔
      ∃ before after, s.toList = before ++ e.name :: after ∧ e.position = before.length ∧
        (∀ c ∈ before, c.isUpper = false) ∧ e.name.isUpper = true := by
  have hcapital (c : Char) : decide (c.isAlpha = true ∧ (!c.isLower) = true) = c.isUpper := by
    rw [Bool.eq_iff_iff, decide_eq_true_iff, Bool.not_eq_true', isUpper_iff]
  rw [sortedNames_eq_error_iff_find?, occurrences_of_parse h, List.find?_filter,
    ← find?_zipIdx_eq_some_iff]
  simp only [hcapital]

/-- The variables of a formula are listed in ascending order, unless one of them is no lowercase
letter; then the leftmost mention of such a variable is reported. For a text, these are its letters,
unless it contains a capital; then the first capital is reported, with its position. -/
theorem sortedNames_outcome (φ : Formula) :
    (∀ e, φ.sortedNames = .error e ↔
      ∃ before after, φ.occurrences = before ++ (e.name, e.position) :: after ∧
        (∀ mention ∈ before, mention.1.isLower = true) ∧ e.name.isLower = false) ∧
    (∀ names, φ.sortedNames = .ok names →
      names.Pairwise (· < ·) ∧ (∀ x, x ∈ names ↔ x ∈ φ.names) ∧ names.length ≤ 26) ∧
    ∀ s, parse s = .ok φ →
      ((∃ e, φ.sortedNames = .error e) ↔ ∃ c ∈ s.toList, c.isUpper = true) ∧
      (∀ e, φ.sortedNames = .error e ↔
        ∃ before after, s.toList = before ++ e.name :: after ∧ e.position = before.length ∧
          (∀ c ∈ before, c.isUpper = false) ∧ e.name.isUpper = true) ∧
      ∀ names, φ.sortedNames = .ok names →
        names.Pairwise (· < ·) ∧ ∀ x, x ∈ names ↔ x ∈ s.toList ∧ x.isAlpha = true := by
  refine ⟨fun e => sortedNames_eq_error_iff, fun names => pairwise_of_sortedNames, fun s hs =>
    ⟨exists_sortedNames_eq_error_iff_of_parse hs, fun e => sortedNames_eq_error_iff_of_parse hs,
      fun names hnames => ?_⟩⟩
  obtain ⟨hascending, hmem, -⟩ := pairwise_of_sortedNames hnames
  exact ⟨hascending, fun x => (hmem x).trans (mem_names_of_parse_iff hs)⟩

end Formula

end PrimeForm
