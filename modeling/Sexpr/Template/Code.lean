import Sexpr.Template.Basic
import Sexpr.Text.Decimal

/-!
# The host code of a template

A template stands for an expression of the host program that builds the form: a call of the
constructor for each part, and a conversion for each part left to the host.
-/

namespace Sexpr.Template

/-- The two tokens between the parts of a path. -/
def pathSeparator : List HostToken := [.punct ':' .joint, .punct ':' .alone]

/-- An absolute path from its parts. -/
def path (parts : List String) : List HostToken :=
  parts.flatMap fun part => pathSeparator ++ [.ident part]

/-- A call of one of the functions that make a form. -/
def call (function : String) (argument : List HostToken) : List HostToken :=
  path ["lisp_reader", "Form", function] ++ [.group .parenthesis argument]

/-- The literal of a text: in double quotes, with a backslash in front of quotes and backslashes. -/
def stringLiteral (text : String) : HostToken :=
  .literal (String.ofList ('"' :: text.toList.flatMap escape ++ ['"']))
where
  escape (c : Char) : List Char := if c = '"' || c = '\\' then ['\\', c] else [c]

/-- The literal of an integer. A negative one is a minus sign and the literal of its absolute
value. -/
def integerLiteral (n : Int64) : List HostToken :=
  let literal := .literal (Decimal.ofNat n.toInt.natAbs ++ "i64")
  if n.toInt < 0 then [.punct '-' .alone, literal] else [literal]

section

-- How the host spells the literal of a text is left to it.
variable (spell : String → HostToken)

mutual

/-- The expression that builds the form of a template. -/
def codeWith : Template → List HostToken
  | .integer n => call "integer" (integerLiteral n)
  | .symbol name => call "symbol" [spell name]
  | .text raw => call "text" [spell raw]
  | .unquoted t => call "from" [t]
  | .list ts =>
    call "List" (path ["std", "vec"] ++ [.punct '!' .alone, .group .bracket (codeAllWith ts)])

/-- The expressions of a sequence of templates, with commas between them. -/
def codeAllWith : List Template → List HostToken
  | [] => []
  | [t] => t.codeWith
  | t :: ts => t.codeWith ++ .punct ',' .alone :: codeAllWith ts

end

end

/-- The expression that builds the form of a template, with the literals of printable texts. -/
def code (t : Template) : List HostToken := t.codeWith stringLiteral

end Sexpr.Template
