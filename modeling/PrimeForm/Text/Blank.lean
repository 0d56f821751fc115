/-!
# Blank characters

The characters with the Unicode property `White_Space`, and the removal of them from a text.

## Main definitions

* `Text.isBlank` — the property
* `Text.removeBlanks` — a text without its blank characters

## Main results

* `Text.toList_removeBlanks` — the other characters stay, in their order
-/

namespace PrimeForm.Text

/-- Does the character have the property `White_Space`? These are the controls from the
horizontal tab to the carriage return, the next-line control, and the space, line and paragraph
separators. -/
def isBlank (c : Char) : Bool :=
  let n := c.toNat
  (0x09 ≤ n && n ≤ 0x0D) || n == 0x20 || n == 0x85 || n == 0xA0 || n == 0x1680 ||
    (0x2000 ≤ n && n ≤ 0x200A) || n == 0x2028 || n == 0x2029 || n == 0x202F || n == 0x205F ||
    n == 0x3000

/-- The text without its blank characters. -/
def removeBlanks (text : String) : String :=
  String.ofList (text.toList.filter fun c => !isBlank c)

theorem toList_removeBlanks (text : String) :
    (removeBlanks text).toList = text.toList.filter fun c => !isBlank c :=
  String.toList_ofList

end PrimeForm.Text
