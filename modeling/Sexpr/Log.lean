import Sexpr.Token.Basic

/-!
# The log of a reading

Every stage of reading records what it does, in the order in which it does it. Tokens and applied
markers are details; whole programs and the extent of a reading are not.
-/

namespace Sexpr

/-- How much a record matters, from the least to the most. -/
inductive Level where
  | trace
  | debug
  | info
deriving DecidableEq, Repr, Inhabited

/-- Something a stage of reading did. -/
inductive Event where
  /-- A token was found. -/
  | token (text : String) (location : Location)
  /-- All tokens were turned into this many top-level forms. -/
  | parsedProgram (forms : Nat)
  /-- A marker was applied to its operand. -/
  | fusedMarker (m : Marker)
  /-- The markers of a program are gone, and this many top-level forms are left. -/
  | expandedProgram (forms : Nat)
  /-- A text of this many bytes is going to be read. -/
  | readStarted (bytes : Nat)
  | entered
  | exited
deriving DecidableEq, Repr, Inhabited

/-- Events from the first to the last. -/
abbrev Log := Array Event

namespace Level

/-- Severity as a number. -/
def rank : Level → Nat
  | trace => 0
  | debug => 1
  | info => 2

end Level

/-- The level of an event. -/
def Event.level : Event → Level
  | .token .. => .trace
  | .fusedMarker _ => .trace
  | _ => .debug

/-- The events that matter at least as much as a level. -/
def Log.atLeast (level : Level) (log : Log) : Log :=
  log.filter fun e => level.rank ≤ e.level.rank

/-- At the lowest level everything is kept. -/
theorem Log.atLeast_trace (log : Log) : log.atLeast .trace = log := by
  simp [Log.atLeast, Level.rank]

/-- No event is of the highest level. -/
theorem Log.atLeast_info (log : Log) : log.atLeast .info = #[] := by
  simp only [Log.atLeast, Array.filter_eq_empty_iff]
  intro e _
  cases e <;> simp [Event.level, Level.rank]

end Sexpr
