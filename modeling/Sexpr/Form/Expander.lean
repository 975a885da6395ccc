import Sexpr.Form.Basic
import Sexpr.Log

/-!
# Applying markers

A marker applies to the element behind it in its sequence: `' x` becomes `(quote x)`. A run of
markers nests, the last one applying first. Lists are expanded before the sequence that holds them,
and a program is one sequence.

Lists may nest only so deeply, and a run of markers may be only as long as further lists could be
opened at its place. That room is part of the state and is given back when a list has been expanded,
whether that went well or not.
-/

namespace Sexpr

/-- Why markers cannot be applied. -/
inductive ExpandError where
  /-- A marker has nothing behind it. -/
  | danglingMarker (m : Marker)
  /-- Lists or runs of markers nest more deeply than allowed. -/
  | recursionLimitExceeded (limit : Nat)
deriving DecidableEq, Repr

/-- The state of expanding forms. -/
structure Expander where
  /-- The tag a backquote stands for. -/
  backquote : BackquoteTag
  /-- How deeply lists may nest. -/
  maxDepth : Nat
  /-- How many more lists may be opened inside the current one. -/
  room : Nat := maxDepth
  log : Log := #[]

namespace Expander

/-- The tag that heads the expansion of a marker. -/
def tag (x : Expander) (m : Marker) : String := m.tagWith x.backquote

/-- Appends an event to the log. -/
def record (x : Expander) (e : Event) : Expander := { x with log := x.log.push e }

/-- The expander with room for this many more lists. -/
def withRoom (x : Expander) (room : Nat) : Expander := { x with room }

/-- The expander when a list has been expanded: its room is given back. -/
def leave (x : Expander) : Expander := { x with room := x.room + 1 }

@[simp] theorem room_record (x : Expander) (e : Event) : (x.record e).room = x.room := rfl

@[simp] theorem room_withRoom (x : Expander) (room : Nat) : (x.withRoom room).room = room := rfl

@[simp] theorem room_leave (x : Expander) : x.leave.room = x.room + 1 := rfl

/-- Applies one marker to its operand. -/
def apply (x : Expander) (m : Marker) (operand : Form) : Form × Expander :=
  (.tagged (x.tag m) operand, x.record (.fusedMarker m))

/-- Applies a run of markers, given from the last to the first, to the operand behind it. -/
def applyRun (x : Expander) : List Marker → Form → Form × Expander
  | [], operand => (operand, x)
  | m :: run, operand =>
    let (f, y) := x.apply m operand
    y.applyRun run f

/-- Applies the markers of a sequence whose lists have been expanded. -/
def fuse (x : Expander) (es : List Form) : Except ExpandError (List Form) × Expander :=
  go x x.room [] [] es
where
  /-- `run` holds the markers just passed, from the last to the first, and `left` tells how many
  more of them there may be; `fused` holds the elements done, from the last to the first. -/
  go (x : Expander) (left : Nat) (run : List Marker) (fused : List Form) :
      List Form → Except ExpandError (List Form) × Expander
    | [] =>
      match run with
      | [] => (.ok fused.reverse, x)
      | m :: _ => (.error (.danglingMarker m), x)
    | e :: es =>
      match e.asMarker? with
      | some m =>
        match left with
        | 0 => (.error (.recursionLimitExceeded x.maxDepth), x)
        | left + 1 => go x left (m :: run) fused es
      | none =>
        let (f, y) := x.applyRun run e
        go y y.room [] (f :: fused) es

mutual

/-- Expands a single form. A marker on its own has nothing to apply to. -/
def expand (x : Expander) : Form → Except ExpandError Form × Expander
  | .atom (.marker m) => (.error (.danglingMarker m), x)
  | .atom a => (.ok (.atom a), x)
  | .list es =>
    match x.room with
    | 0 => (.error (.recursionLimitExceeded x.maxDepth), x)
    | room + 1 =>
      match sequence (x.withRoom room) [] es with
      | (.ok fused, y) => (.ok (.list fused), y.leave)
      | (.error e, y) => (.error e, y.leave)

/-- Expands the lists of a sequence from left to right, then applies its markers. `done` holds the
elements passed, from the last to the first. -/
def sequence (x : Expander) (done : List Form) :
    List Form → Except ExpandError (List Form) × Expander
  | [] => x.fuse done.reverse
  | e :: es =>
    if e.isList then
      match expand x e with
      | (.ok f, y) => sequence y (f :: done) es
      | (.error err, y) => (.error err, y)
    else sequence x (e :: done) es

end

/-- Expands a program. Its top-level forms are one sequence. -/
def expandProgram (x : Expander) (p : Program) : Except ExpandError Program × Expander :=
  match x.sequence [] p with
  | (.ok fused, y) => (.ok fused, y.record (.expandedProgram fused.length))
  | (.error e, y) => (.error e, y)

end Expander

/-- The expansion of a form under a limit on nesting. -/
def Form.expand (backquote : BackquoteTag) (maxDepth : Nat) (f : Form) : Except ExpandError Form :=
  (Expander.expand { backquote, maxDepth } f).1

/-- The expansion of a program under a limit on nesting. -/
def Program.expand (backquote : BackquoteTag) (maxDepth : Nat) (p : Program) :
    Except ExpandError Program :=
  (Expander.expandProgram { backquote, maxDepth } p).1

end Sexpr
