/-!
# Places in a text

A location names a character for people: line and column, both counted from 1. A position also knows
the byte at which the text goes on. Only the newline character starts a line, and a column is one
character whatever its encoding.
-/

namespace Sexpr

/-- Line and column of a character, from 1. Columns count characters. -/
structure Location where
  line : Nat
  column : Nat
deriving DecidableEq, Repr

/-- How far a text has been consumed: the location of the next character and its byte offset. -/
structure Position extends Location where
  line := 1
  column := 1
  offset : Nat := 0
deriving DecidableEq, Repr

namespace Position

/-- The position after one character. -/
def step (p : Position) (c : Char) : Position :=
  if c = '\n' then { line := p.line + 1, column := 1, offset := p.offset + c.utf8Size }
  else { line := p.line, column := p.column + 1, offset := p.offset + c.utf8Size }

/-- The position after a run of characters. -/
def advance (p : Position) (cs : List Char) : Position := cs.foldl step p

@[simp] theorem advance_nil (p : Position) : p.advance [] = p := rfl

@[simp] theorem advance_cons (p : Position) (c : Char) (cs : List Char) :
    p.advance (c :: cs) = (p.step c).advance cs := rfl

@[simp] theorem advance_append (p : Position) (cs ds : List Char) :
    p.advance (cs ++ ds) = (p.advance cs).advance ds := List.foldl_append

/-- Every newline passed is one line further down. -/
theorem line_advance (p : Position) (cs : List Char) :
    (p.advance cs).line = p.line + cs.count '\n' := by
  induction cs generalizing p with
  | nil => simp
  | cons c cs ih =>
    by_cases h : c = '\n' <;> simp [ih, step, h, Nat.add_assoc, Nat.add_comm 1]

/-- The offset grows by the bytes of the characters passed. -/
theorem offset_advance (p : Position) (cs : List Char) :
    (p.advance cs).offset = p.offset + (String.ofList cs).utf8ByteSize := by
  induction cs generalizing p with
  | nil => simp
  | cons c cs ih =>
    have hsize : (String.ofList (c :: cs)).utf8ByteSize
        = c.utf8Size + (String.ofList cs).utf8ByteSize := by
      rw [← List.singleton_append, String.ofList_append, String.utf8ByteSize_append,
        ← String.singleton_eq_ofList, String.utf8ByteSize_singleton]
    rw [advance_cons, ih, hsize]
    by_cases h : c = '\n' <;> simp [step, h, Nat.add_assoc]

end Position

end Sexpr
