/-!
# Tokens of a host language

A form can be written down inside the source of a host program. The host hands over its own tokens:
names, literals, single punctuation characters, and groups of tokens between delimiters.
-/

namespace Sexpr

/-- Whether a punctuation character is directly followed by another one. -/
inductive Spacing where
  | alone
  | joint
deriving DecidableEq, Repr, Inhabited

/-- What stands around a group of tokens. -/
inductive Delimiter where
  | parenthesis
  | brace
  | bracket
  /-- Nothing that can be seen. -/
  | none
deriving DecidableEq, Repr, Inhabited

/-- A token of the host language. -/
inductive HostToken where
  | ident (name : String)
  /-- A literal as written. -/
  | literal (text : String)
  | punct (c : Char) (spacing : Spacing)
  | group (delimiter : Delimiter) (content : List HostToken)
deriving Inhabited

end Sexpr
