import Clausal.Command

/-! The program: reads the arguments, runs the command, and writes the result where it belongs. -/
namespace Clausal.Command

/-- The system that the program runs on. -/
def system : System IO where
  print := IO.print
  write path text := do
    try
      IO.FS.writeFile path text
      return true
    catch _ => return false

def report (e : Failure) : IO UInt32 := do
  IO.eprintln s!"Error: {e.text}"
  return 1

end Clausal.Command

open Clausal in
def main (args : List String) : IO UInt32 := do
  match Arguments.parse args with
  | .request r =>
    match ← (Command.run Command.system r).run with
    | .ok () => return 0
    | .error e => Command.report e
  | .version => do
    IO.print Command.versionText
    return 0
  | .help => do
    IO.print Command.helpText
    return 0
  | .usage => do
    IO.eprint Command.helpText
    return 2
