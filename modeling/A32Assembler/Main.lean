import A32Assembler.Calculator.Console
import A32Assembler.Tour

/-!
# Command line

`tour` shows the assembler at work. `calculator` takes expressions as arguments or, without any,
line by line from its input; `--show-code` shows the code of each.
-/

namespace A32Assembler

/-- One line of input after another until the input ends or a line ends the session. -/
partial def converse (showCode : Bool) (input output : IO.FS.Stream) : IO Unit := do
  let line ← input.getLine
  if line.isEmpty then return
  match Calculator.lineText? showCode .detected line.toList with
  | none => return
  | some text =>
    output.putStr text
    output.flush
    converse showCode input output

/-- The calculator on its arguments. -/
def calculate (arguments : List String) : IO Unit := do
  let output ← IO.getStdout
  let expressions := arguments.filter (· ≠ Calculator.showCodeOption)
  if expressions.isEmpty then
    output.putStr Calculator.banner
    output.flush
    converse (arguments.contains Calculator.showCodeOption) (← IO.getStdin) output
  else output.putStr (Calculator.transcript .detected arguments "")

end A32Assembler

open A32Assembler in
/-- The programs of the command line. -/
def main (arguments : List String) : IO UInt32 := do
  match arguments with
  | "tour" :: _ =>
    IO.print (Tour.transcript .detected)
    return 0
  | "calculator" :: rest =>
    calculate rest
    return 0
  | _ =>
    IO.eprintln "usage: tour | calculator [--show-code] [expression ...]"
    return 2
