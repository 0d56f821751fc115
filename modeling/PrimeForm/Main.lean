import PrimeForm.CommandLine

/-!
# The program

Prints the answer of the command line: the result on standard output, and everything beside it on
standard error.
-/

open PrimeForm in
/-- Answer the arguments and leave with the exit code of the answer. -/
def main (args : List String) : IO UInt32 := do
  let answer := CommandLine.run args
  for note in answer.notes do
    IO.eprintln note
  IO.print answer.output
  return UInt32.ofNat answer.exitCode
