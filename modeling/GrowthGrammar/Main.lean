import GrowthGrammar.CommandLine

/-!
# The program

Reads the files that the command line names, prints the output, and ends with the code of the
outcome. Warnings and failures go to the error channel.
-/

set_option autoImplicit false

open GrowthGrammar

/-- The contents of a file, if it can be read as text. -/
def readText (path : String) : IO (Option String) := do
  try
    let contents ← IO.FS.readFile path
    return some contents
  catch _ => return none

def main (args : List String) : IO UInt32 := do
  let outcome ← CommandLine.run readText args
  for diagnostic in outcome.warnings do
    IO.eprintln s!"rewrite failed, keeping occurrence of '{diagnostic.symbol}'"
  IO.print outcome.output
  match outcome.failure with
  | some line => IO.eprintln line
  | none => pure ()
  return outcome.code.toUInt32
