import Sexpr.Proofs.Form.Stack

/-!
# The first lexeme that cannot be taken

The stack machine takes lexemes until it meets one that it cannot take: an opening parenthesis with
no room left, a closing one with nothing to close, or an integer that is out of range.
`Stack.Offends` says which lexemes these are, apart from the machine. What follows such a lexeme has
no part in the error, and if there is none only the end of the lexemes can be at fault:

* `Stack.step_eq_error_iff`: the machine refuses exactly the offending lexemes;
* `Stack.takeAll_eq_error_iff`: of several lexemes the earliest offending one is refused;
* `Program.ofLexemes_eq_stack_machine`: **the parser comes to the same as the machine, and its error
  is that of the earliest offending lexeme**, or else that of the innermost list left open.
-/

namespace Sexpr

/-- An atom is refused exactly if its text spells an integer that is out of range. -/
theorem Atom.ofText?_eq_none_iff {text : String} : Atom.ofText? text = none ↔
    ∃ z, Decimal.int? text.toList = some z ∧ Decimal.inRange z = false := by
  unfold Atom.ofText?
  split
  · simp only [Option.map_eq_none_iff, Decimal.int64?]
    rename_i hkind
    have hinteger := AtomKind.of_eq_integer_iff.1 hkind
    rw [← Decimal.int?_isSome] at hinteger
    obtain ⟨z, hz⟩ := Option.isSome_iff_exists.1 hinteger
    simp [hz]
  all_goals
    rename_i hkind
    simp only [reduceCtorEq, false_iff, not_exists, not_and]
    intro z hz
    have hinteger := AtomKind.of_eq_integer_iff.2 (Decimal.isInteger_of_int?_eq_some hz)
    rw [hkind] at hinteger
    cases hinteger

namespace Stack

/-- A lexeme that cannot be taken, and the error it is refused with. -/
inductive Offends (maxDepth : Nat) (s : Stack) (x : Lexeme) : ParseError → Prop where
  /-- As many lists are open as may be. -/
  | tooDeep (hx : x.token = .opening) (hfull : s.opened.length = maxDepth) :
    Offends maxDepth s x (.recursionLimitExceeded maxDepth x.location)
  /-- No list is open. -/
  | unmatched (hx : x.token = .closing) (hnone : s.opened = []) :
    Offends maxDepth s x (.unmatchedClose x.location)
  /-- An integer does not fit into a word. -/
  | outOfRange {text : String} {z : Int} (hx : x.token = .atom text)
    (hz : Decimal.int? text.toList = some z) (hrange : Decimal.inRange z = false) :
    Offends maxDepth s x (.numberOutOfRange text x.location)

section

variable {maxDepth : Nat} {s : Stack} {x : Lexeme} {xs : List Lexeme} {e : ParseError}

theorem step_eq_error_iff : s.step maxDepth x = .error e ↔ Offends maxDepth s x e := by
  constructor
  · intro h
    unfold step at h
    split at h
    · rename_i hx
      split at h
      · rename_i hfull
        cases h
        exact .tooDeep hx hfull
      · cases h
    · rename_i hx
      split at h
      · rename_i hnone
        cases h
        exact .unmatched hx hnone
      · cases h
    · rename_i text hx
      split at h
      · cases h
      · rename_i hatom
        cases h
        obtain ⟨z, hz, hrange⟩ := Atom.ofText?_eq_none_iff.1 hatom
        exact .outOfRange hx hz hrange
    · cases h
  · intro h
    cases h with
    | tooDeep hx hfull => simp [step, hx, hfull]
    | unmatched hx hnone => simp [step, hx, hnone]
    | outOfRange hx hz hrange =>
      simp [step, hx, Atom.ofText?_eq_none_iff.2 ⟨_, hz, hrange⟩]

/-- Lexemes are refused as a whole exactly if one of them offends; the error is that of the first.
-/
theorem takeAll_eq_error_iff : s.takeAll maxDepth xs = .error e ↔
    ∃ before y after t, xs = before ++ y :: after ∧ s.takeAll maxDepth before = .ok t ∧
      Offends maxDepth t y e := by
  induction xs generalizing s with
  | nil => simp
  | cons x xs ih =>
    cases h : s.step maxDepth x with
    | error e' =>
      rw [takeAll_cons_error h]
      constructor
      · intro heq
        cases heq
        exact ⟨[], x, xs, s, rfl, rfl, step_eq_error_iff.1 h⟩
      · rintro ⟨before, y, after, t, hxs, hbefore, hoffends⟩
        cases before with
        | nil =>
          cases hxs
          cases hbefore
          rw [← h]
          exact step_eq_error_iff.2 hoffends
        | cons z before =>
          cases hxs
          rw [takeAll_cons_error h] at hbefore
          cases hbefore
    | ok u =>
      rw [takeAll_cons_ok h, ih]
      constructor
      · rintro ⟨before, y, after, t, rfl, hbefore, hoffends⟩
        exact ⟨x :: before, y, after, t, rfl, (takeAll_cons_ok h).trans hbefore, hoffends⟩
      · rintro ⟨before, y, after, t, hxs, hbefore, hoffends⟩
        cases before with
        | nil =>
          cases hxs
          cases hbefore
          rw [step_eq_error_iff.2 hoffends] at h
          cases h
        | cons z before =>
          cases hxs
          exact ⟨before, y, after, t, rfl, (takeAll_cons_ok h).symm.trans hbefore, hoffends⟩

theorem finish_eq_error_iff : s.finish = .error e ↔
    ∃ location found rest, s.opened = (location, found) :: rest ∧ e = .unexpectedEnd location := by
  unfold finish
  split
  · rename_i hnone
    simp [hnone]
  · rename_i location found rest hopened
    simp only [Except.error.injEq, hopened, List.cons.injEq, Prod.mk.injEq]
    constructor
    · rintro rfl
      exact ⟨location, found, rest, ⟨⟨rfl, rfl⟩, rfl⟩, rfl⟩
    · rintro ⟨_, _, _, ⟨⟨rfl, -⟩, -⟩, rfl⟩
      rfl

end

end Stack

/-- **The parser comes to the same as one pass over the lexemes with a stack of open lists.** Its
error is that of the earliest lexeme that offends; if none does, the innermost list that is open at
the end is reported. -/
theorem Program.ofLexemes_eq_stack_machine (maxDepth : Nat) (xs : List Lexeme) :
    Program.ofLexemes maxDepth xs = Stack.run maxDepth {} xs ∧
    ∀ e, Program.ofLexemes maxDepth xs = .error e ↔
      (∃ before x after s, xs = before ++ x :: after ∧ Stack.takeAll maxDepth {} before = .ok s ∧
        s.Offends maxDepth x e) ∨
      ∃ s location found rest, Stack.takeAll maxDepth {} xs = .ok s ∧
        s.opened = (location, found) :: rest ∧ e = .unexpectedEnd location := by
  refine ⟨Program.ofLexemes_eq_run maxDepth xs, ?_⟩
  intro e
  rw [Program.ofLexemes_eq_run, Stack.run_eq, ← Stack.takeAll_eq_error_iff]
  cases h : Stack.takeAll maxDepth {} xs with
  | error e' => simp
  | ok s => simp [Stack.finish_eq_error_iff]

end Sexpr
