import Sexpr.Form.Expander
import Sexpr.Form.Parser
import Sexpr.Token.Scanner

/-!
# Errors of reading

Reading fails for one of four reasons: the bytes cannot be had, the text has no tokens, the tokens
do not make up forms, or the markers cannot be applied. Each has a message; all but the first and
the last point at a place in the text if they know it.
-/

namespace Sexpr

/-- What kind of trouble a source or a sink of bytes has met. -/
inductive IoKind where
  /-- Nothing is wrong; try again. -/
  | interrupted
  | unexpectedEnd
  | invalidData
  /-- A sink takes no more bytes. -/
  | writeZero
  | other
  /-- Any other kind, by its name. -/
  | named (name : String)
deriving DecidableEq, Repr

namespace IoKind

def name : IoKind → String
  | interrupted => "Interrupted"
  | unexpectedEnd => "UnexpectedEof"
  | invalidData => "InvalidData"
  | writeZero => "WriteZero"
  | other => "Other"
  | named name => name

/-- The kind with a name. -/
def ofName (name : String) : IoKind :=
  if name = "Interrupted" then interrupted
  else if name = "UnexpectedEof" then unexpectedEnd
  else if name = "InvalidData" then invalidData
  else if name = "WriteZero" then writeZero
  else if name = "Other" then other
  else named name

theorem name_ofName (name : String) : (ofName name).name = name := by
  unfold ofName
  split
  · subst name; rfl
  split
  · subst name; rfl
  split
  · subst name; rfl
  split
  · subst name; rfl
  split
  · subst name; rfl
  · rfl

end IoKind

/-- Trouble with a source or a sink of bytes. -/
structure IoError where
  kind : IoKind
  message : String
deriving DecidableEq, Repr

/-- Why reading failed. -/
inductive Error where
  | io (e : IoError)
  | scan (e : ScanError)
  | parse (e : ParseError)
  | expand (e : ExpandError)
deriving DecidableEq, Repr

/-- What an error means to the one who reads. -/
inductive Category where
  /-- The bytes cannot be had. -/
  | io
  /-- No more text will make it right. -/
  | malformed
  /-- The text ends too early. -/
  | incomplete
  /-- The markers cannot be applied. -/
  | expansion
deriving DecidableEq, Repr

/-! ## Messages -/

/-- A location in words. -/
def Location.describe (l : Location) : String :=
  "line " ++ Decimal.ofNat l.line ++ " column " ++ Decimal.ofNat l.column

/-- The end of a message about a place, which is empty if the place is not known. -/
def Location.suffix : Option Location → String
  | some l => " at " ++ l.describe
  | none => ""

def ScanError.message : ScanError → String
  | .unterminatedString l => "EOF while parsing a string starting at " ++ l.describe

def ParseError.message : ParseError → String
  | .unexpectedEnd l => "EOF while parsing a list" ++ Location.suffix l
  | .unmatchedClose l => "unmatched closing parenthesis" ++ Location.suffix l
  | .numberOutOfRange text l => "number out of range: " ++ text ++ Location.suffix l
  | .recursionLimitExceeded limit l =>
    "recursion limit of " ++ Decimal.ofNat limit ++ " exceeded" ++ Location.suffix l

def ExpandError.message : ExpandError → String
  | .danglingMarker m => "reader macro `" ++ m.text ++ "` has no operand"
  | .recursionLimitExceeded limit => "recursion limit of " ++ Decimal.ofNat limit ++ " exceeded"

/-- The place a parse error points at, if it is known. -/
def ParseError.location? : ParseError → Option Location
  | .unexpectedEnd l => l
  | .unmatchedClose l => l
  | .numberOutOfRange _ l => l
  | .recursionLimitExceeded _ l => l

namespace Error

def message : Error → String
  | io e => e.message
  | scan e => e.message
  | parse e => e.message
  | expand e => e.message

/-- The place an error points at. Forms do not remember where they were found, so markers that
cannot be applied have none. -/
def location? : Error → Option Location
  | io _ => none
  | scan (.unterminatedString l) => some l
  | parse e => e.location?
  | expand _ => none

def category : Error → Category
  | io _ => .io
  | scan (.unterminatedString _) => .incomplete
  | parse (.unexpectedEnd _) => .incomplete
  | parse (.unmatchedClose _) => .malformed
  | parse (.numberOutOfRange ..) => .malformed
  | parse (.recursionLimitExceeded ..) => .malformed
  | expand _ => .expansion

def isIo (e : Error) : Bool := e.category == .io

/-- No more text will make it right. -/
def isMalformed (e : Error) : Bool := e.category == .malformed

/-- The text ends too early; more of it may complete it. -/
def isIncomplete (e : Error) : Bool := e.category == .incomplete

def isExpansion (e : Error) : Bool := e.category == .expansion

/-- The error as trouble with a source of bytes: data that ends too early, or invalid data. -/
def toIoError : Error → IoError
  | io e => e
  | e =>
    match e.category with
    | .incomplete => { kind := .unexpectedEnd, message := e.message }
    | _ => { kind := .invalidData, message := e.message }

/-- The error for the eyes of a programmer: the message in quotes, and the place if it is known. -/
def describe (e : Error) : String :=
  match e.location? with
  | some l =>
    "Error(\"" ++ e.message ++ "\", line: " ++ Decimal.ofNat l.line ++ ", column: "
      ++ Decimal.ofNat l.column ++ ")"
  | none => "Error(\"" ++ e.message ++ "\")"

/-- The conversion keeps the message. -/
theorem message_toIoError (e : Error) : e.toIoError.message = e.message := by
  cases e with
  | io e => rfl
  | scan e => cases e; rfl
  | parse e => cases e <;> rfl
  | expand e => cases e <;> rfl

end Error

end Sexpr
