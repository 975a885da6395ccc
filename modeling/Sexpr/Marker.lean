/-!
# Markers

A marker is the shorthand written in front of an operand: `'x` for `(quote x)`, and so on. Each
marker has the text it is written with and the tag that heads the list it stands for.
-/

namespace Sexpr

inductive Marker where
  /-- The quote, `'`. -/
  | quote
  /-- The backquote. -/
  | quasiquote
  /-- The comma, `,`. -/
  | unquote
  /-- The splicing comma, `,@`. -/
  | unquoteSplicing
  /-- The function shorthand, `#'`. -/
  | function
deriving DecidableEq, Repr, Inhabited

/-- The tag that heads the expansion of a backquote: the one of a plain quote, or its own. -/
inductive BackquoteTag where
  | quote
  | quasiquote
deriving DecidableEq, Repr, Inhabited

namespace Marker

/-- All markers; of two that start alike the longer comes first. -/
def all : List Marker := [quote, quasiquote, unquoteSplicing, unquote, function]

/-- What a marker is written with. -/
def text : Marker → String
  | quote => "'"
  | quasiquote => "`"
  | unquote => ","
  | unquoteSplicing => ",@"
  | function => "#'"

/-- The symbol that heads the list a marker stands for. A backquote counts as a plain quote. -/
def tag : Marker → String
  | quote => "quote"
  | quasiquote => "quote"
  | unquote => "unquote"
  | unquoteSplicing => "unquote-splicing"
  | function => "function"

/-- The tag of a marker where the backquote may have a tag of its own. -/
def tagWith (backquote : BackquoteTag) (m : Marker) : String :=
  match m, backquote with
  | quasiquote, .quasiquote => "quasiquote"
  | m, _ => m.tag

/-- The marker that abbreviates a list headed by a tag. `quasiquote` is the backquote's alone. -/
def ofTag? (tag : String) : Option Marker :=
  if tag = "quote" then some quote
  else if tag = "quasiquote" then some quasiquote
  else if tag = "unquote" then some unquote
  else if tag = "unquote-splicing" then some unquoteSplicing
  else if tag = "function" then some function
  else none

/-- The marker written with a text. -/
def ofText? (text : String) : Option Marker := all.find? fun m => m.text == text

/-- The marker at the front of a text and what follows it. A comma goes with an `@` behind it. -/
def split? : List Char → Option (Marker × List Char)
  | '\'' :: cs => some (quote, cs)
  | '\x60' :: cs => some (quasiquote, cs)
  | ',' :: '@' :: cs => some (unquoteSplicing, cs)
  | ',' :: cs => some (unquote, cs)
  | '#' :: '\'' :: cs => some (function, cs)
  | _ => none

theorem mem_all (m : Marker) : m ∈ all := by cases m <;> decide

/-- With a tag of its own for the backquote, the tag tells the marker. -/
theorem ofTag?_tagWith_quasiquote (m : Marker) : ofTag? (m.tagWith .quasiquote) = some m := by
  cases m <;> decide

theorem ofText?_text (m : Marker) : ofText? m.text = some m := by cases m <;> decide

theorem text_toList_ne_nil (m : Marker) : m.text.toList ≠ [] := by cases m <;> decide

/-- Splitting takes the marker's own characters and no others. -/
theorem append_of_split?_eq_some {cs rest : List Char} {m : Marker}
    (h : split? cs = some (m, rest)) : m.text.toList ++ rest = cs := by
  unfold split? at h
  split at h <;> simp_all [text] <;> obtain ⟨rfl, rfl⟩ := h <;> rfl

end Marker

end Sexpr
