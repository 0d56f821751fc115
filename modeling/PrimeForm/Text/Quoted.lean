import PrimeForm.Text.Hidden

/-!
# Quoted text

The form in which messages and outlines quote a character or a text: between delimiters, on one
line, and with an escape for everything that would not be seen.

## Main definitions

* `Text.escaped` — a character as it stands between two delimiters
* `Text.quoted`, `Text.quotedChar` — a text between double quotes, a character between single ones
* `Text.quotedChars` — a list of quoted characters between brackets
-/

namespace PrimeForm.Text

/-- The character as it stands between two delimiters. -/
def escaped (delimiter c : Char) : List Char :=
  if c = '\t' then ['\\', 't']
  else if c = '\r' then ['\\', 'r']
  else if c = '\n' then ['\\', 'n']
  else if c = Char.ofNat 0 then ['\\', '0']
  else if c = '\\' || c = delimiter then ['\\', c]
  else if isHidden c then
    ['\\', 'u', '\x7b'] ++ Nat.toDigits 16 c.toNat ++ ['\x7d']
  else [c]

/-- The text between double quotes. -/
def quoted (text : String) : String :=
  String.ofList ('"' :: (text.toList.flatMap (escaped '"') ++ ['"']))

/-- The character between single quotes. -/
def quotedChar (c : Char) : String := String.ofList ('\'' :: (escaped '\'' c ++ ['\'']))

/-- The list of quoted characters, between brackets. -/
def quotedChars (cs : List Char) : String := "[" ++ ", ".intercalate (cs.map quotedChar) ++ "]"

end PrimeForm.Text
