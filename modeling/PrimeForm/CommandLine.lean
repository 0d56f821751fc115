import PrimeForm.Journal

/-!
# The command line

The arguments of the program and what the program answers. Arguments are read from left to right,
and the first one that settles the outcome ends the reading.

## Main definitions

* `CommandLine.Settings` — what the arguments ask for
* `CommandLine.settings` — the settings that a list of arguments describes, or why it ends early
* `CommandLine.report` — the analysis of a formula in print
* `CommandLine.run` — the answer to a list of arguments
-/

namespace PrimeForm.CommandLine

/-- What the arguments ask for. -/
structure Settings where
  /-- The text given by the option. -/
  expression : Option String := none
  /-- The text given without an option. -/
  positional : Option String := none
  /-- The outline of the formula is shown. -/
  showOutline : Bool := false
  /-- The truth table is left out. -/
  omitTable : Bool := false
  /-- The name of the least grave severity that is reported. -/
  severity : Option String := none
deriving DecidableEq, Repr

/-- Why the arguments describe no settings. -/
inductive Stop where
  /-- The arguments ask for the version. -/
  | version
  /-- The arguments ask for help. -/
  | help
  /-- The arguments are not understood. -/
  | usage (complaint : String)
deriving DecidableEq, Repr

/-- The options that take a value. -/
inductive Field where
  | expression
  | severity
deriving DecidableEq, Repr

/-- The options that take no value. -/
inductive Switch where
  | showOutline
  | omitTable
  | help
  | version
deriving DecidableEq, Repr

/-- An option of either kind. -/
inductive Choice where
  | field (field : Field)
  | switch (switch : Switch)
deriving DecidableEq, Repr

/-- The option with a long name. -/
def Choice.ofName? (name : String) : Option Choice :=
  if name = "expression" then some (.field .expression)
  else if name = "log-level" then some (.field .severity)
  else if name = "show-ast" then some (.switch .showOutline)
  else if name = "no-table" then some (.switch .omitTable)
  else if name = "help" then some (.switch .help)
  else if name = "version" then some (.switch .version)
  else none

/-- The option with a letter. -/
def Choice.ofLetter? (letter : Char) : Option Choice :=
  if letter = 'e' then some (.field .expression)
  else if letter = 'h' then some (.switch .help)
  else if letter = 'V' then some (.switch .version)
  else none

/-- How far down the records stand that are still reported under a severity given by name. -/
def rankOf? (name : String) : Option Nat :=
  if name = "off" then some 0
  else if name = "error" then some Severity.error.rank
  else if name = "warn" then some Severity.warn.rank
  else if name = "info" then some Severity.info.rank
  else if name = "debug" then some Severity.debug.rank
  else if name = "trace" then some Severity.trace.rank
  else none

/-- An argument by its form. -/
inductive Argument where
  /-- Two dashes and nothing else. -/
  | separator
  /-- Two dashes, a name and, behind an equality sign, a value. -/
  | long (name : String) (value : Option String)
  /-- A dash, a letter, and what follows the letter. -/
  | short (letter : Char) (rest : List Char)
  /-- Everything else, a single dash included. -/
  | plain (text : String)
deriving DecidableEq, Repr

/-- The form of an argument. -/
def Argument.ofString (arg : String) : Argument :=
  match arg.toList with
  | ['-', '-'] => .separator
  | '-' :: '-' :: cs =>
    match cs.dropWhile (· ≠ '=') with
    | [] => .long (String.ofList cs) none
    | _ :: value => .long (String.ofList (cs.takeWhile (· ≠ '='))) (some (String.ofList value))
  | '-' :: c :: cs => .short c cs
  | _ => .plain arg

/-- What is known after some of the arguments. -/
structure Progress where
  settings : Settings := {}
  /-- The option that the next argument is the value of. -/
  pending : Option Field := none
  /-- A separator has been seen, so that no more options follow. -/
  separated : Bool := false
deriving DecidableEq, Repr

namespace Progress

/-- The complaint about an argument that has no place. -/
def unexpected {α : Type} (arg : String) : Except Stop α :=
  .error (.usage ("unexpected argument '" ++ arg ++ "'"))

/-- The complaint about an option that is given a second time. -/
def repeated {α : Type} : Except Stop α := .error (.usage "an option is given more than once")

/-- The progress with the value of an option set. -/
def setField (p : Progress) (field : Field) (value : String) : Except Stop Progress :=
  match field with
  | .expression =>
    if p.settings.expression.isSome then repeated
    else .ok { p with settings.expression := some value, pending := none }
  | .severity =>
    if (rankOf? value).isNone then .error (.usage ("invalid log level '" ++ value ++ "'"))
    else if p.settings.severity.isSome then repeated
    else .ok { p with settings.severity := some value, pending := none }

/-- The progress with an option without a value turned on. -/
def setSwitch (p : Progress) : Switch → Except Stop Progress
  | .showOutline =>
    if p.settings.showOutline then repeated else .ok { p with settings.showOutline := true }
  | .omitTable =>
    if p.settings.omitTable then repeated else .ok { p with settings.omitTable := true }
  | .help => .error .help
  | .version => .error .version

/-- The progress with the text set that stands without an option. -/
def setPositional (p : Progress) (text : String) : Except Stop Progress :=
  if p.settings.positional.isSome then unexpected text
  else .ok { p with settings.positional := some text }

/-- The value that follows the letter of an option, an equality sign before it removed. -/
def attached : List Char → Option String
  | [] => none
  | '=' :: cs => some (String.ofList cs)
  | cs => some (String.ofList cs)

/-- Give an option the value attached to it, if there is one, and let it wait for one if not. -/
def giveField (p : Progress) (field : Field) : Option String → Except Stop Progress
  | some value => p.setField field value
  | none => .ok { p with pending := some field }

/-- The progress after an argument that is not the value of an option. -/
def takeArgument (p : Progress) (arg : String) : Except Stop Progress :=
  match Argument.ofString arg with
  | .separator => .ok { p with separated := true }
  | .plain text => p.setPositional text
  | .long name value =>
    match Choice.ofName? name, value with
    | some (.field field), value => p.giveField field value
    | some (.switch s), none => p.setSwitch s
    | _, _ => unexpected arg
  | .short letter rest =>
    match Choice.ofLetter? letter with
    | some (.field field) => p.giveField field (attached rest)
    | some (.switch s) => p.setSwitch s
    | none => unexpected arg

/-- The progress after one more argument. The value of an option does not look like an option. -/
def take (p : Progress) (arg : String) : Except Stop Progress :=
  if p.separated then p.setPositional arg
  else
    match p.pending with
    | none => p.takeArgument arg
    | some field =>
      match Argument.ofString arg with
      | .plain value => p.setField field value
      | _ => .error (.usage "an option lacks its value")

end Progress

/-- The settings that a list of arguments describes. The text of a formula is given once. -/
def settings (args : List String) : Except Stop Settings := do
  let p ← args.foldlM Progress.take {}
  if p.pending.isSome then
    throw (.usage "an option lacks its value")
  if p.settings.expression.isSome && p.settings.positional.isSome then
    throw (.usage "the expression is given twice")
  return p.settings

/-! ### Answers -/

/-- Items between brackets. -/
def listed (items : List String) : String := "[" ++ ", ".intercalate items ++ "]"

/-- A line of its own for the simplified form and, unless it is a constant, for its parseable
text. -/
def simplifiedLines : SumOfProducts → List String
  | .constant b => ["Simplified: " ++ (SumOfProducts.constant b).text]
  | .implicants names terms =>
    let sum := SumOfProducts.implicants names terms
    ["Simplified: " ++ sum.text, "Parseable: " ++ sum.parseableText]

/-- The paragraphs of a report, each of them followed by an empty line. -/
def paragraphs (s : Settings) (a : Analysis) : List String :=
  (if s.showOutline then [a.formula.indentedOutline ++ "\n"] else []) ++
    (a.table.explicit.toList.map fun text =>
      "AST-Based expression reconstruction: " ++ text ++ "\n") ++
    (if s.omitTable then [] else [a.table.text])

/-- The lines at the end of a report. -/
def summary (a : Analysis) : List String :=
  ["Variables: " ++ listed (a.names.map Char.toString),
    "Minterms: " ++ listed (a.table.minterms.map toString),
    "Prime implicants: " ++ listed (a.primeImplicants.map Term.text)] ++
    (a.simplified.map simplifiedLines).getD []

/-- The analysis of a formula in print. -/
def report (s : Settings) (a : Analysis) : String :=
  String.join ((paragraphs s a ++ summary a).map (· ++ "\n"))

/-- What the program answers to its arguments. -/
structure Answer where
  exitCode : Nat
  /-- What is printed as the result. -/
  output : String
  /-- What is printed beside the result. -/
  notes : List String
deriving DecidableEq, Repr

/-- The name and version of the program. -/
def versionLine : String := "implicant 0.1.0\n"

/-- The forms of a command. -/
def helpText : String :=
  "Usage: implicant [OPTIONS] [EXPR]\n\n" ++
    "  -e, --expression EXPR   the expression to analyse\n" ++
    "      --show-ast          show the structure of the expression\n" ++
    "      --no-table          leave out the truth table\n" ++
    "      --log-level LEVEL   off, error, warn, info, debug or trace\n" ++
    "  -h, --help              show this text\n" ++
    "  -V, --version           show the version\n"

/-- The records that the settings let through, in print. Without a choice these are the warnings
and what is graver. -/
def notes (s : Settings) (records : List Record) : List String :=
  let rank := ((s.severity.bind rankOf?).getD Severity.warn.rank)
  (records.filter fun r => r.severity.rank ≤ rank).map Record.text

/-- The answer of the program to settings. -/
def answer (s : Settings) : Answer :=
  match s.expression.or s.positional with
  | none => ⟨1, "", ["error: no expression is given"]⟩
  | some text =>
    let records := notes s (Journal.ofAnalysis {} text)
    match analyze {} text with
    | .error failure => ⟨1, "", records ++ ["error: " ++ failure.message]⟩
    | .ok a => ⟨0, report s a, records⟩

/-- The answer of the program to a list of arguments. -/
def run (args : List String) : Answer :=
  match settings args with
  | .error .version => ⟨0, versionLine, []⟩
  | .error .help => ⟨0, helpText, []⟩
  | .error (.usage complaint) => ⟨2, "", ["error: " ++ complaint]⟩
  | .ok s => answer s

end PrimeForm.CommandLine
