import Sexpr.Marker
import Sexpr.Text.Decimal

/-!
# Atoms

The leaves of a form: integers, symbols, quoted text and markers. Quoted text keeps its quotes and
escapes as written. The kind of an atom read from a text depends on the shape of the text alone.
-/

namespace Sexpr

/-- A leaf of a form. -/
inductive Atom where
  | integer (n : Int64)
  | symbol (name : String)
  /-- Quoted text with its delimiters, as written. -/
  | text (raw : String)
  /-- A marker that has not been applied to its operand yet. -/
  | marker (m : Marker)
deriving DecidableEq, Inhabited

/-- What a piece of text denotes when it is read as an atom. -/
inductive AtomKind where
  | integer
  | text
  | symbol
deriving DecidableEq, Repr, Inhabited

namespace AtomKind

/-- Whether a text starts with a double quote and ends with another one. -/
def isQuoted : List Char → Bool
  | '"' :: cs => cs.getLast? == some '"'
  | _ => false

/-- The kind of an atom's text: an integer by its digits, quoted text by its delimiters, and a
symbol otherwise. An integer need not be in range. -/
def of (text : String) : AtomKind :=
  if Decimal.isInteger text.toList then .integer
  else if isQuoted text.toList then .text
  else .symbol

theorem of_eq_integer_iff {text : String} :
    of text = .integer ↔ Decimal.isInteger text.toList = true := by
  unfold of
  split
  · simp_all
  · split <;> simp_all

end AtomKind

namespace Atom

/-- The kind of an atom; a marker has none. -/
def kind? : Atom → Option AtomKind
  | integer _ => some .integer
  | symbol _ => some .symbol
  | text _ => some .text
  | marker _ => none

/-- The atom a text denotes, or none if it spells an integer that is out of range. -/
def ofText? (text : String) : Option Atom :=
  match AtomKind.of text with
  | .integer => (Decimal.int64? text.toList).map integer
  | .text => some (.text text)
  | .symbol => some (.symbol text)

end Atom

end Sexpr
