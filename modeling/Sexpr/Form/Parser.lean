import Sexpr.Form.Basic
import Sexpr.Log

/-!
# From lexemes to forms

A parser takes lexemes from the front of a sequence and turns them into forms by recursive descent:
a form is an atom, a marker, or the elements between a pair of parentheses. Markers are kept where
they are found. How many more lists may be opened is part of the state; it is given back when a list
ends, whether it ends well or not, so a parser can be used again after an error and goes on with the
lexemes that are left.
-/

namespace Sexpr

/-- Why lexemes do not make up a form. -/
inductive ParseError where
  /-- A list is still open at the end; the location is that of its opening parenthesis. -/
  | unexpectedEnd (location : Option Location)
  /-- A closing parenthesis has nothing to close. -/
  | unmatchedClose (location : Option Location)
  /-- An integer does not fit into 64 bits. -/
  | numberOutOfRange (text : String) (location : Option Location)
  /-- A list is nested more deeply than allowed. -/
  | recursionLimitExceeded (limit : Nat) (location : Option Location)
deriving DecidableEq, Repr

/-- The state of parsing a sequence of lexemes. -/
structure Parser where
  /-- How deeply lists may nest. -/
  maxDepth : Nat
  /-- What has not been parsed yet. -/
  pending : List Lexeme
  /-- How many more lists may be opened inside the current one. -/
  room : Nat := maxDepth
  log : Log := #[]

namespace Parser

/-- A parser at the start of a sequence of lexemes, which goes on with a log. -/
def start (maxDepth : Nat) (pending : List Lexeme) (log : Log := #[]) : Parser :=
  { maxDepth, pending, log }

/-- The parser with other lexemes left. -/
def withPending (p : Parser) (rest : List Lexeme) : Parser := { p with pending := rest }

/-- The parser with room for this many more lists. -/
def withRoom (p : Parser) (room : Nat) : Parser := { p with room }

/-- The parser when a list has ended: its room is given back. -/
def leave (p : Parser) : Parser := { p with room := p.room + 1 }

@[simp] theorem pending_withPending (p : Parser) (rest : List Lexeme) :
    (p.withPending rest).pending = rest := rfl

@[simp] theorem room_withPending (p : Parser) (rest : List Lexeme) :
    (p.withPending rest).room = p.room := rfl

@[simp] theorem pending_withRoom (p : Parser) (room : Nat) :
    (p.withRoom room).pending = p.pending := rfl

@[simp] theorem room_withRoom (p : Parser) (room : Nat) : (p.withRoom room).room = room := rfl

@[simp] theorem pending_leave (p : Parser) : p.leave.pending = p.pending := rfl

@[simp] theorem room_leave (p : Parser) : p.leave.room = p.room + 1 := rfl

/-- What comes of parsing a form, and a parser that has no more lexemes left than before. -/
abbrev Step (p : Parser) :=
  { r : Except ParseError Form × Parser // r.2.pending.length ≤ p.pending.length }

mutual

/-- The form that starts with a lexeme, which has been taken already. -/
def form (p : Parser) (x : Lexeme) : p.Step :=
  match x.token with
  | .opening =>
    match p.room with
    | 0 => ⟨(.error (.recursionLimitExceeded p.maxDepth x.location), p), Nat.le_refl _⟩
    | room + 1 =>
      match elements (p.withRoom room) x.location [] with
      | ⟨(result, q), h⟩ => ⟨(result, q.leave), h⟩
  | .closing => ⟨(.error (.unmatchedClose x.location), p), Nat.le_refl _⟩
  | .atom text =>
    match Atom.ofText? text with
    | some a => ⟨(.ok (.atom a), p), Nat.le_refl _⟩
    | none => ⟨(.error (.numberOutOfRange text x.location), p), Nat.le_refl _⟩
  | .marker m => ⟨(.ok (.marker m), p), Nat.le_refl _⟩
termination_by 2 * p.pending.length + 1
decreasing_by exact Nat.lt_succ_self _

/-- The list whose opening parenthesis stands at `opened`, from behind the elements `found` (the
last one first) through its closing parenthesis. -/
def elements (p : Parser) (opened : Option Location) (found : List Form) : p.Step :=
  match hp : p.pending with
  | [] => ⟨(.error (.unexpectedEnd opened), p), Nat.le_of_eq (by rw [hp])⟩
  | x :: rest =>
    if x.token = .closing then
      ⟨(.ok (.list found.reverse), p.withPending rest), by simp [hp]⟩
    else
      match form (p.withPending rest) x with
      | ⟨(.error e, q), h⟩ => ⟨(.error e, q), Nat.le_trans h (by simp [hp])⟩
      | ⟨(.ok f, q), h⟩ =>
        ⟨(elements q opened (f :: found)).val,
          Nat.le_trans (elements q opened (f :: found)).property
            (Nat.le_trans h (by simp [hp]))⟩
termination_by 2 * p.pending.length
decreasing_by
  all_goals have hlen : p.pending.length = rest.length + 1 := by rw [hp, List.length_cons]
  · rw [pending_withPending]
    omega
  all_goals
    have hq : q.pending.length ≤ rest.length := h
    omega

end

/-! ## One step of the descent -/

section

variable {p : Parser} {x : Lexeme} {rest : List Lexeme} {opened : Option Location}
  {found : List Form}

theorem form_opening_zero (hx : x.token = .opening) (hp : p.room = 0) :
    (p.form x).val = (.error (.recursionLimitExceeded p.maxDepth x.location), p) := by
  rw [form]
  split <;> simp_all

theorem form_opening_succ {room : Nat} (hx : x.token = .opening) (hp : p.room = room + 1) :
    (p.form x).val = (((p.withRoom room).elements x.location []).val.1,
      ((p.withRoom room).elements x.location []).val.2.leave) := by
  rw [form]
  split <;> simp_all

theorem form_closing (hx : x.token = .closing) :
    (p.form x).val = (.error (.unmatchedClose x.location), p) := by
  rw [form]
  split <;> simp_all

theorem form_atom {text : String} (hx : x.token = .atom text) :
    (p.form x).val = (match Atom.ofText? text with
      | some a => .ok (.atom a)
      | none => .error (.numberOutOfRange text x.location), p) := by
  rw [form]
  split <;> simp_all
  split <;> simp_all

theorem form_marker {m : Marker} (hx : x.token = .marker m) :
    (p.form x).val = (.ok (.marker m), p) := by
  rw [form]
  split <;> simp_all

theorem elements_nil (hp : p.pending = []) :
    (p.elements opened found).val = (.error (.unexpectedEnd opened), p) := by
  rw [elements]
  split <;> simp_all

theorem elements_closing (hp : p.pending = x :: rest) (hx : x.token = .closing) :
    (p.elements opened found).val = (.ok (.list found.reverse), p.withPending rest) := by
  rw [elements]
  split <;> simp_all

/-- An error of an element is an error of the list. -/
theorem elements_error {q : Parser} {e : ParseError} (hp : p.pending = x :: rest)
    (hx : x.token ≠ .closing) (hf : ((p.withPending rest).form x).val = (.error e, q)) :
    (p.elements opened found).val = (.error e, q) := by
  rw [elements]
  split
  · simp_all
  · rename_i y rest' hy
    rw [hp] at hy
    cases hy
    rw [if_neg hx]
    split <;> simp_all

/-- An element that is a form is followed by the others. -/
theorem elements_ok {q : Parser} {f : Form} (hp : p.pending = x :: rest)
    (hx : x.token ≠ .closing) (hf : ((p.withPending rest).form x).val = (.ok f, q)) :
    (p.elements opened found).val = (q.elements opened (f :: found)).val := by
  rw [elements]
  split
  · simp_all
  · rename_i y rest' hy
    rw [hp] at hy
    cases hy
    rw [if_neg hx]
    split
    · simp_all
    · rename_i hf'
      rw [hf'] at hf
      cases hf
      rfl

end

/-- The next top-level form, or none if no lexemes are left. -/
def parse? (p : Parser) : Except ParseError (Option Form) × Parser :=
  match p.pending with
  | [] => (.ok none, p)
  | x :: rest =>
    match (form (p.withPending rest) x).val with
    | (.ok f, q) => (.ok (some f), q)
    | (.error e, q) => (.error e, q)

/-- The next top-level form, which has to be there. -/
def parseForm (p : Parser) : Except ParseError Form × Parser :=
  match p.parse? with
  | (.ok (some f), q) => (.ok f, q)
  | (.ok none, q) => (.error (.unexpectedEnd none), q)
  | (.error e, q) => (.error e, q)

/-- Whether no lexemes are left. -/
def isAtEnd (p : Parser) : Bool := p.pending.isEmpty

/-- A form takes one lexeme at least. -/
theorem length_lt_of_parse? {p q : Parser} {f : Form} (h : p.parse? = (.ok (some f), q)) :
    q.pending.length < p.pending.length := by
  unfold parse? at h
  split at h
  · cases h
  · rename_i x rest hp
    have hle := (form (p.withPending rest) x).property
    split at h
    · rename_i hf
      cases h
      rw [hf] at hle
      simp only [pending_withPending] at hle
      rw [hp, List.length_cons]
      omega
    · cases h

/-- All top-level forms that are left. The first error ends the parsing. -/
def parseProgram (p : Parser) : Except ParseError Program × Parser :=
  go p []
where
  go (p : Parser) (found : List Form) : Except ParseError Program × Parser :=
    match _h : p.parse? with
    | (.ok (some f), q) => go q (f :: found)
    | (.ok none, q) =>
      (.ok found.reverse, { q with log := q.log.push (.parsedProgram found.length) })
    | (.error e, q) => (.error e, q)
  termination_by p.pending.length
  decreasing_by exact length_lt_of_parse? _h

end Parser

/-- The program a sequence of lexemes makes up. -/
def Program.ofLexemes (maxDepth : Nat) (xs : List Lexeme) : Except ParseError Program :=
  (Parser.start maxDepth xs).parseProgram.1

end Sexpr
