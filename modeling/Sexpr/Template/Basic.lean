import Sexpr.Template.Host

/-!
# Templates

A template is a form written down in a host program, in which parts can be left to the host. It has
no markers: a template is read by the host's rules, and its `,` is a part left to the host.
-/

namespace Sexpr

/-- A form as written in a host program. -/
inductive Template where
  | integer (n : Int64)
  | symbol (name : String)
  /-- Quoted text with its delimiters. -/
  | text (raw : String)
  /-- A token that the host program turns into a form. -/
  | unquoted (t : HostToken)
  | list (elements : List Template)
deriving Inhabited

/-- Why host tokens are no template. -/
inductive TemplateError where
  /-- The literal behind `#` is not in double quotes. -/
  | expectedString (literal : String)
  /-- Not an integer, or one that does not fit into 64 bits. -/
  | invalidInteger (text : String)
  | unsupportedLiteral (literal : String)
  | unexpectedChar (c : Char)
  | unexpectedDelimiter (delimiter : Delimiter)
  | unexpectedToken (t : HostToken)
  /-- There is more behind the template. -/
  | trailingToken (t : HostToken)
  | unexpectedEnd

end Sexpr
