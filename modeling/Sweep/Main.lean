import Sweep.Machine.Survey
import Sweep.Program
/-!
# The command

Runs the program on the machine that a survey on standard input describes.
-/

namespace Sweep

/-- The lines up to the end of the input. -/
partial def readLines (input : IO.FS.Stream) (before : List Text) : IO (List Text) := do
  let line ← input.getLine
  if line.isEmpty then return before.reverse
  let bare := line.toList
  readLines input ((if bare.getLast? = some '\n' then bare.dropLast else bare) :: before)

end Sweep

/-- Prints what the run prints and ends with its code. -/
def main (args : List String) : IO UInt32 := do
  let machine := Sweep.Survey.machine (← Sweep.readLines (← IO.getStdin) [])
  let outcome := Sweep.Program.run machine (args.map fun a => Sweep.Text.bytes a.toList)
  (← IO.getStdout).putStr (String.ofList outcome.output)
  return UInt32.ofNat outcome.code
