import Sexpr.Error
import Sexpr.Form.Formatter

/-!
# Printing into a sink

A sink takes bytes up to a limit. A piece of text that does not fit is taken as far as it fits and
is then refused. A printer writes a form piece by piece, in the order of the text, and stops at the
piece that is refused. What has been taken stays, and a printer can be used again, though a full
sink will refuse all but empty pieces.
-/

namespace Sexpr

/-- Takes bytes up to a limit, if it has one. -/
structure Sink where
  limit : Option Nat := none
  /-- How a full sink refuses a piece. -/
  refusal : IoError
  /-- All bytes taken so far. -/
  written : ByteArray := .empty

namespace Sink

/-- How many bytes of a piece still fit. -/
def fitting (s : Sink) (piece : ByteArray) : Nat :=
  match s.limit with
  | some limit => min piece.size (limit - s.written.size)
  | none => piece.size

/-- Takes a piece as far as it fits. -/
def write (s : Sink) (piece : ByteArray) : Except IoError Unit × Sink :=
  let n := s.fitting piece
  let taken := { s with written := s.written ++ piece.extract 0 n }
  if n = piece.size then (.ok (), taken) else (.error taken.refusal, taken)

/-- An empty piece always fits. -/
theorem write_empty (s : Sink) : s.write .empty = (.ok (), s) := by
  have hn : s.fitting .empty = 0 := by
    unfold fitting
    split <;> simp
  simp [write, hn]

end Sink

/-- Something that is written into a sink. It ends at the first refusal. -/
abbrev Writing := ExceptT IoError (StateM Sink) Unit

namespace Writing

/-- Writes a piece of text. -/
def piece (text : String) : Writing := fun s => s.write text.toUTF8

/-- Writes the marker of an abbreviated list. A comma is kept apart from an operand that starts with
`@`, with which it would read as the splicing comma. -/
def shorthand (fmt : Formatter) (m : Marker) (operand : Form) : Writing := do
  piece (fmt.marker m)
  if m = .unquote && Formatter.startsWithAt operand then piece " "

mutual

/-- Writes a form. -/
def form (fmt : Formatter) : Form → Writing
  | .atom a => piece (fmt.atom a)
  | .list [head, operand] =>
    match fmt.shorthand? head operand with
    | some m => do
      shorthand fmt m operand
      form fmt operand
    | none => do
      piece fmt.beginList
      elements fmt true [head, operand]
      piece fmt.endList
  | .list es => do
    piece fmt.beginList
    elements fmt true es
    piece fmt.endList

/-- Writes the elements of a list, from the first one if `first` is set. -/
def elements (fmt : Formatter) (first : Bool) : List Form → Writing
  | [] => pure ()
  | e :: es => do
    piece (fmt.beginElement first)
    form fmt e
    piece fmt.endElement
    elements fmt false es

end

/-- Writes a program, each form with a newline behind it. -/
def program (fmt : Formatter) : Program → Writing
  | [] => pure ()
  | f :: fs => do
    form fmt f
    piece "\n"
    program fmt fs

end Writing

/-- Writes forms into a sink. -/
structure Printer where
  formatter : Formatter := .plain
  sink : Sink

namespace Printer

/-- Writes something into the sink of the printer. -/
def run : Printer → Writing → Except IoError Unit × Printer
  | ⟨formatter, sink⟩, writing =>
    match writing.run.run sink with
    | (result, sink) => (result, ⟨formatter, sink⟩)

/-- Writes one form. -/
def print (p : Printer) (f : Form) : Except IoError Unit × Printer :=
  p.run (.form p.formatter f)

/-- Writes a program, each form with a newline behind it. -/
def printProgram (p : Printer) (program : Program) : Except IoError Unit × Printer :=
  p.run (.program p.formatter program)

end Printer

end Sexpr
