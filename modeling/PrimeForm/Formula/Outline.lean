import PrimeForm.Formula.Basic
import PrimeForm.Text.Quoted

/-!
# Outlines of formulas

The structure of a formula spelled out node by node, with positions: on one line for the journal,
or indented over several lines for the eye.

## Main definitions

* `Formula.outline` — the outline on one line
* `Formula.indentedOutline` — the outline over several lines
-/

namespace PrimeForm

namespace Formula

/-- The word for a truth value. -/
def truthWord (value : Bool) : String := if value then "true" else "false"

/-- The outline of a formula on one line. -/
def outline : Formula → String
  | var x p =>
    "Variable \x7b name: " ++ Text.quotedChar x ++ ", position: " ++ toString p ++ " \x7d"
  | literal b => "Literal(" ++ truthWord b ++ ")"
  | neg φ => "Invert(" ++ φ.outline ++ ")"
  | binary op φ ψ p =>
    "Binary \x7b op: " ++ op.name ++ ", left: " ++ φ.outline ++ ", right: " ++ ψ.outline ++
      ", position: " ++ toString p ++ " \x7d"

/-- Entries on lines of their own between two brackets, one step further in than `margin`. -/
def block (margin opening : String) (entries : List String) (closing : String) : String :=
  opening ++ "\n" ++ String.join (entries.map fun entry => margin ++ "    " ++ entry ++ ",\n") ++
    margin ++ closing

/-- The outline of a formula over several lines, all but the first of them indented by at least
`margin`. -/
def outlineFrom (margin : String) : Formula → String
  | var x p =>
    block margin "Variable \x7b" ["name: " ++ Text.quotedChar x, "position: " ++ toString p] "\x7d"
  | literal b => block margin "Literal(" [truthWord b] ")"
  | neg φ => block margin "Invert(" [φ.outlineFrom (margin ++ "    ")] ")"
  | binary op φ ψ p =>
    block margin "Binary \x7b"
      ["op: " ++ op.name, "left: " ++ φ.outlineFrom (margin ++ "    "),
        "right: " ++ ψ.outlineFrom (margin ++ "    "), "position: " ++ toString p] "\x7d"

/-- The outline of a formula over several lines. -/
def indentedOutline (φ : Formula) : String := φ.outlineFrom ""

end Formula

end PrimeForm
