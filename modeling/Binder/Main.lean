import Binder.Command

/-! The program: binds the document in a file or on the standard input and prints the report. -/
namespace Binder.Command

def readInput (o : Options) : IO String := do
  match o.input with
  | some path => IO.FS.readFile path
  | none => (← IO.getStdin).readToEnd

/-- Prints why nothing was bound. -/
def abort (reason : String) : IO UInt32 := do
  IO.eprintln ("error: " ++ reason)
  return 1

end Binder.Command

open Binder

/-- Prints the report; any failure goes to the standard error and ends with exit code 1. -/
def main (args : List String) : IO UInt32 := do
  match Command.options args with
  | .error failure => Command.abort failure.message
  | .ok o =>
      match ← (Command.readInput o).toBaseIO with
      | .error e => Command.abort e.toString
      | .ok source =>
          match Command.output o source with
          | .error failure => Command.abort failure.message
          | .ok text =>
              IO.print text
              return 0
