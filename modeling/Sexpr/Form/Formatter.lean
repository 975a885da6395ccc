import Sexpr.Form.Basic

/-!
# Writing forms

A formatter says how each part of a form is written; a form is then a sequence of pieces of text.
The plain formatter writes a form on one line with single blanks between elements, so that reading
gives the form back. The abbreviating one also writes `'x` for `(quote x)`, and so on for every
tag.
-/

namespace Sexpr

/-- How the parts of a form are written. -/
structure Formatter where
  integer : Int64 → String := Decimal.ofInt64
  symbol : String → String := id
  /-- Quoted text is given with its delimiters. -/
  text : String → String := id
  marker : Marker → String := Marker.text
  beginList : String := "("
  endList : String := ")"
  /-- What comes before an element, which may be the first one. -/
  beginElement : Bool → String := fun first => if first then "" else " "
  endElement : String := ""
  /-- The marker to write for a two-element list headed by a tag, if any. -/
  abbreviation : String → Option Marker := fun _ => none

namespace Formatter

/-- Writes lists headed by a tag in full. -/
def plain : Formatter := {}

/-- Writes a list of a tag and an operand with the marker of the tag. -/
def abbreviating : Formatter := { abbreviation := Marker.ofTag? }

/-- How an atom is written. -/
def atom (fmt : Formatter) : Atom → String
  | .integer n => fmt.integer n
  | .symbol name => fmt.symbol name
  | .text raw => fmt.text raw
  | .marker m => fmt.marker m

/-- The marker to write for the list of a head and an operand. An operand that is a marker itself
could not be told from a run of markers, so such a list is written in full. -/
def shorthand? (fmt : Formatter) (head operand : Form) : Option Marker :=
  if operand.isMarker then none
  else
    match head.asSymbol? with
    | some tag => fmt.abbreviation tag
    | none => none

/-- Whether a form is a symbol that starts with `@`. -/
def startsWithAt (f : Form) : Bool :=
  match f.asSymbol? with
  | some name => name.toList.head? == some '@'
  | none => false

/-- Writes the marker of an abbreviated list. A comma is kept apart from an operand that starts with
`@`, with which it would read as the splicing comma. -/
def emitShorthand (fmt : Formatter) (out : Array String) (m : Marker) (operand : Form) :
    Array String :=
  if m = .unquote && startsWithAt operand then (out.push (fmt.marker m)).push " "
  else out.push (fmt.marker m)

mutual

/-- Appends the pieces of a form. -/
def emit (fmt : Formatter) (out : Array String) : Form → Array String
  | .atom a => out.push (fmt.atom a)
  | .list [head, operand] =>
    match fmt.shorthand? head operand with
    | some m => fmt.emit (fmt.emitShorthand out m operand) operand
    | none => (fmt.emitElements (out.push fmt.beginList) true [head, operand]).push fmt.endList
  | .list es => (fmt.emitElements (out.push fmt.beginList) true es).push fmt.endList

/-- Appends the pieces of the elements of a list, from the first one if `first` is set. -/
def emitElements (fmt : Formatter) (out : Array String) (first : Bool) :
    List Form → Array String
  | [] => out
  | e :: es =>
    fmt.emitElements ((fmt.emit (out.push (fmt.beginElement first)) e).push fmt.endElement) false es

end

/-- Appends the pieces of a program: each form, and a newline behind it. -/
def emitProgram (fmt : Formatter) (out : Array String) (p : Program) : Array String :=
  p.foldl (fun out f => (fmt.emit out f).push "\n") out

/-- One text from its pieces. -/
def join (pieces : Array String) : String := pieces.foldl (· ++ ·) ""

/-- The text of a form. -/
def print (fmt : Formatter) (f : Form) : String := join (fmt.emit #[] f)

/-- The text of a program, one form in a line. -/
def printProgram (fmt : Formatter) (p : Program) : String := join (fmt.emitProgram #[] p)

end Formatter

/-- The text of a form, in full. -/
def Form.print (f : Form) : String := Formatter.plain.print f

/-- The text of a program, in full. -/
def Program.print (p : Program) : String := Formatter.plain.printProgram p

instance : ToString Form := ⟨Form.print⟩

end Sexpr
