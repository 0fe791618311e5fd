import BraceLisp.CommandLine

/-!
The command line program.
-/

open BraceLisp

/-- Reads the standard input to its end where it is needed, and writes what the run writes. -/
def main (args : List String) : IO UInt32 := do
  let needsInput := match Options.ofArguments? args with
    | some o => o.expression.isNone
    | none => false
  let stdin ← if needsInput then (← IO.getStdin).readBinToEnd else pure ByteArray.empty
  let outcome := CommandLine.run args stdin.toList
  IO.print outcome.output.stdout
  IO.eprint outcome.output.stderr
  return outcome.exit.code.toUInt32
