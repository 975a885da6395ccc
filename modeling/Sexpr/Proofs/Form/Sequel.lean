import Sexpr.Proofs.Form.Offence
import Sexpr.Proofs.Token.Seam

/-!
# Lexemes behind a program

Lexemes that stand behind those of a whole program, and further down in the text, are parsed as they
are on their own: the forms are put behind the program, and an error is the same further down. On
the stack machine this is a matter of one step (`Stack.step_behind`), which does not look at the
forms that are complete and hands on locations as they are.
-/

namespace Sexpr

/-- The same error some lines further down. -/
def ParseError.down (n : Nat) : ParseError → ParseError
  | .unexpectedEnd l => .unexpectedEnd (l.map (.down n))
  | .unmatchedClose l => .unmatchedClose (l.map (.down n))
  | .numberOutOfRange text l => .numberOutOfRange text (l.map (.down n))
  | .recursionLimitExceeded limit l => .recursionLimitExceeded limit (l.map (.down n))

namespace Stack

/-- The stack with a program in front of its forms, and its open lists further down. -/
def behind (p : Program) (n : Nat) (s : Stack) : Stack where
  done := s.done ++ p.reverse
  opened := s.opened.map fun frame => (frame.1.map (.down n), frame.2)

variable {p : Program} {n maxDepth : Nat} {s : Stack} {x : Lexeme}

@[simp] theorem length_opened_behind : (s.behind p n).opened.length = s.opened.length := by
  simp [behind]

theorem behind_enter (location : Option Location) (found : List Form) :
    (s.enter location found).behind p n = (s.behind p n).enter (location.map (.down n)) found := rfl

theorem behind_push (f : Form) : (s.push f).behind p n = (s.behind p n).push f := by
  obtain ⟨done, opened⟩ := s
  cases opened with
  | nil => rfl
  | cons frame rest => rfl

/-- A step does the same behind a program. -/
theorem step_behind : (s.behind p n).step maxDepth (x.down n) =
    match s.step maxDepth x with
    | .ok t => .ok (t.behind p n)
    | .error e => .error (e.down n) := by
  unfold step
  rw [Lexeme.token_down, Lexeme.location_down]
  cases x.token with
  | opening =>
    by_cases hfull : s.opened.length = maxDepth
    · simp [hfull, ParseError.down]
    · simp [hfull, behind_enter]
  | closing =>
    obtain ⟨done, opened⟩ := s
    cases opened with
    | nil => simp [behind, ParseError.down]
    | cons frame rest =>
      exact congrArg Except.ok (behind_push (s := ⟨done, rest⟩) (.list frame.2.reverse)).symm
  | atom text =>
    cases ha : Atom.ofText? text with
    | some a => simp [ha, behind_push]
    | none => simp [ha, ParseError.down]
  | marker m => simp [behind_push]

theorem finish_behind : (s.behind p n).finish =
    match s.finish with
    | .ok q => .ok (p ++ q)
    | .error e => .error (e.down n) := by
  obtain ⟨done, opened⟩ := s
  cases opened with
  | nil => simp [finish, behind]
  | cons frame rest => simp [finish, behind, ParseError.down]

/-- So does a whole run. -/
theorem run_behind (xs : List Lexeme) : (s.behind p n).run maxDepth (xs.map (.down n)) =
    match s.run maxDepth xs with
    | .ok q => .ok (p ++ q)
    | .error e => .error (e.down n) := by
  induction xs generalizing s with
  | nil => exact finish_behind
  | cons x xs ih =>
    rw [List.map_cons, run, run, step_behind]
    cases h : s.step maxDepth x with
    | ok t => exact ih
    | error e => rfl

end Stack

/-- Lexemes behind those of a program, and further down, make up the program and then what they make
up on their own. -/
theorem Program.ofLexemes_append {maxDepth : Nat} {xs : List Lexeme} {p : Program}
    (h : Program.ofLexemes maxDepth xs = .ok p) (ys : List Lexeme) (n : Nat) :
    Program.ofLexemes maxDepth (xs ++ ys.map (.down n)) =
      match Program.ofLexemes maxDepth ys with
      | .ok q => .ok (p ++ q)
      | .error e => .error (e.down n) := by
  rw [Program.ofLexemes_eq_run] at h ⊢
  rw [Program.ofLexemes_eq_run, Stack.run_append, ← Stack.run_behind]
  rw [Stack.run_eq] at h
  cases hs : Stack.takeAll maxDepth {} xs with
  | error e => simp [hs] at h
  | ok s =>
    obtain ⟨done, opened⟩ := s
    cases opened with
    | nil =>
      obtain rfl : done.reverse = p := by simpa [hs, Stack.finish] using h
      simp [Stack.behind]
    | cons frame rest => simp [hs, Stack.finish] at h

end Sexpr
