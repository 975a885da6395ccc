import Sexpr.Program.Reader

/-!
# Reading from a stream of bytes

A stream delivers bytes piece by piece and may fail in between. It is read to its end before its
bytes are taken for UTF-8 as a whole, so that a character may be split between two pieces and a
failure of the stream comes before any invalid bytes.
-/

namespace Sexpr

/-- What a stream answers when it is asked for bytes. -/
inductive Chunk where
  | bytes (b : ByteArray)
  | failure (e : IoError)

namespace Chunk

/-- All bytes of a stream behind those read so far. An interruption is no failure: the stream is
asked again. -/
def readAll (sofar : ByteArray) : List Chunk → Except IoError ByteArray
  | [] => .ok sofar
  | .bytes b :: rest => readAll (sofar ++ b) rest
  | .failure e :: rest => if e.kind = .interrupted then readAll sofar rest else .error e

end Chunk

/-- Bytes that are not UTF-8. -/
def IoError.notUtf8 : IoError :=
  { kind := .invalidData, message := "stream did not contain valid UTF-8" }

/-- The text that bytes encode. -/
def decodeText (bytes : ByteArray) : Except IoError String :=
  match String.fromUTF8? bytes with
  | some text => .ok text
  | none => .error .notUtf8

/-- The text a stream delivers. -/
def Chunk.readText (chunks : List Chunk) : Except IoError String :=
  match readAll .empty chunks with
  | .ok all => decodeText all
  | .error e => .error e

/-- The program a stream delivers. Nothing is read, and nothing logged, before the text is there. -/
def Reader.readStream (r : Reader) (chunks : List Chunk) : Except Error Program × Reader :=
  match Chunk.readText chunks with
  | .ok text => r.read text
  | .error e => (.error (.io e), r)

end Sexpr
