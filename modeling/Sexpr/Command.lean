import Sexpr.Form.Formatter
import Sexpr.Program.Stream

/-!
# The command line

The command reads a program from its input and writes it with all markers applied, one form in a
line. With the argument `--abbreviate` it writes the markers again.
-/

namespace Sexpr

/-- What a run of the command leaves behind. -/
structure Outcome where
  exitCode : UInt8
  output : String
  /-- What to say about a failure. -/
  complaint : Option String := none

/-- An error as the command reports it. -/
def Error.complaint : Error → String
  | .io e =>
    "Error: Error \x7b kind: " ++ e.kind.name ++ ", message: \"" ++ e.message ++ "\" \x7d"
  | e =>
    "Error: Custom \x7b kind: " ++ e.toIoError.kind.name ++ ", error: " ++ e.describe ++ " \x7d"

/-- Runs the command on its arguments and its input. -/
def runCommand (args : List String) (input : ByteArray) : Outcome :=
  let formatter := if args.contains "--abbreviate" then Formatter.abbreviating else .plain
  match (Reader.readStream {} [.bytes input]).1 with
  | .ok program => { exitCode := 0, output := formatter.printProgram program }
  | .error e => { exitCode := 1, output := "", complaint := some e.complaint }

end Sexpr
