import Sexpr.Command

/-!
# The program

Hands standard input to the command and writes what it returns.
-/

namespace Sexpr

/-- All bytes of a stream behind those read so far. -/
partial def readToEnd (stream : IO.FS.Stream) (sofar : ByteArray) : IO ByteArray := do
  let more ← stream.read 65536
  if more.isEmpty then return sofar else readToEnd stream (sofar ++ more)

end Sexpr

def main (args : List String) : IO UInt32 := do
  let input ← Sexpr.readToEnd (← IO.getStdin) .empty
  let outcome := Sexpr.runCommand args input
  let out ← IO.getStdout
  out.putStr outcome.output
  out.flush
  if let some complaint := outcome.complaint then
    (← IO.getStderr).putStrLn complaint
  return outcome.exitCode.toUInt32
