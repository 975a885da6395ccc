import Sexpr.Marker
import Sexpr.Text.Position

/-!
# Tokens

A text is a flat sequence of parentheses, atoms and markers, with gaps between them. A lexeme is a
token together with the place of its first character; tokens made by hand have no place.
-/

namespace Sexpr

inductive Token where
  /-- An opening parenthesis. -/
  | opening
  /-- A closing parenthesis. -/
  | closing
  /-- The text of an atom as written; quoted text keeps its quotes. -/
  | atom (text : String)
  | marker (m : Marker)
deriving DecidableEq, Repr, Inhabited

namespace Token

/-- What a token is written with. -/
def text : Token → String
  | opening => "("
  | closing => ")"
  | atom text => text
  | marker m => m.text

/-- The marker a token stands for, if it is one. -/
def marker? : Token → Option Marker
  | marker m => some m
  | _ => none

end Token

/-- A token and where it was found. -/
structure Lexeme where
  token : Token
  location : Option Location := none
deriving DecidableEq, Repr, Inhabited

end Sexpr
