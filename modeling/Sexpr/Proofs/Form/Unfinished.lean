import Sexpr.Proofs.Form.Nesting

/-!
# Lexemes that end too early

Parsing fails on a lexeme that the stack machine refuses, or at the end, with a list still open.
What follows a lexeme that is refused has no part in the error. A list that is open at the end can
still be closed, and there is always room for that.

* `Stack.exists_run_closings`: open lists can be closed;
* `Program.cases_of_ofLexemes_error`: the two ways of failing, apart from one another;
* `Program.unexpectedEnd_iff_completable`: **lexemes end too early exactly if they fail and more of
  them make up for it**; any other error stays as it is, whatever follows.
-/

namespace Sexpr

namespace Stack

variable {maxDepth : Nat} {s : Stack} {xs ys : List Lexeme} {e : ParseError}

/-- As many closing parentheses as lists are open complete a program. -/
theorem exists_run_closings
    (hys : ys.map Lexeme.token = List.replicate s.opened.length .closing) :
    ∃ p, s.run maxDepth ys = .ok p := by
  induction ys generalizing s with
  | nil =>
    have hnone : s.opened = [] := by
      have hlen := congrArg List.length hys
      rw [List.length_replicate] at hlen
      exact List.length_eq_zero_iff.1 hlen.symm
    exact ⟨s.done.reverse, by simp [run, finish, hnone]⟩
  | cons y ys ih =>
    obtain ⟨done, opened⟩ := s
    cases opened with
    | nil => cases hys
    | cons frame rest =>
      obtain ⟨hy, hrest⟩ := List.cons.inj hys
      obtain ⟨p, hp⟩ := ih (s := push ⟨done, rest⟩ (.list frame.2.reverse))
        (by rw [length_opened_push]; exact hrest)
      exact ⟨p, (run_closing (s := ⟨done, rest⟩) hy frame.1 frame.2).trans hp⟩

/-- A lexeme is not refused for being the last one. -/
theorem ne_unexpectedEnd_of_takeAll (h : s.takeAll maxDepth xs = .error e)
    (location : Option Location) : e ≠ .unexpectedEnd location := by
  obtain ⟨before, y, after, t, -, -, hoffends⟩ := takeAll_eq_error_iff.1 h
  cases hoffends <;> nofun

end Stack

namespace Program

variable {maxDepth : Nat} {xs : List Lexeme} {e : ParseError}

/-- Parsing fails because a lexeme is refused, or because a list is open at the end. -/
theorem cases_of_ofLexemes_error (h : Program.ofLexemes maxDepth xs = .error e) :
    (Stack.takeAll maxDepth {} xs = .error e ∧ ∀ l, e ≠ .unexpectedEnd l) ∨
    ∃ s l, Stack.takeAll maxDepth {} xs = .ok s ∧ e = .unexpectedEnd l := by
  rw [Program.ofLexemes_eq_run, Stack.run_eq] at h
  cases hxs : Stack.takeAll maxDepth {} xs with
  | error e' =>
    rw [hxs] at h
    cases h
    exact .inl ⟨rfl, Stack.ne_unexpectedEnd_of_takeAll hxs⟩
  | ok s =>
    rw [hxs] at h
    obtain ⟨l, found, rest, -, rfl⟩ := Stack.finish_eq_error_iff.1 h
    exact .inr ⟨s, l, rfl, rfl⟩

/-- What follows a lexeme that is refused has no part in the error. -/
theorem ofLexemes_append_of_error (h : Program.ofLexemes maxDepth xs = .error e)
    (he : ∀ l, e ≠ .unexpectedEnd l) (ys : List Lexeme) :
    Program.ofLexemes maxDepth (xs ++ ys) = .error e := by
  obtain ⟨hxs, -⟩ | ⟨s, l, -, rfl⟩ := cases_of_ofLexemes_error h
  · rw [Program.ofLexemes_eq_run, Stack.run_append, hxs]
  · exact absurd rfl (he l)

/-- Where the end comes too early, as many closing parentheses as lists are open complete a program.
-/
theorem exists_ofLexemes_closings {l : Option Location}
    (h : Program.ofLexemes maxDepth xs = .error (.unexpectedEnd l)) :
    ∃ n, openLists? 0 (xs.map Lexeme.token) = some n ∧
      ∀ ys, ys.map Lexeme.token = List.replicate n .closing →
        ∃ p, Program.ofLexemes maxDepth (xs ++ ys) = .ok p := by
  obtain ⟨-, he⟩ | ⟨s, -, hxs, -⟩ := cases_of_ofLexemes_error h
  · exact absurd rfl (he l)
  · refine ⟨s.opened.length, Stack.openLists?_of_takeAll hxs, fun ys hys => ?_⟩
    rw [Program.ofLexemes_eq_run, Stack.run_append, hxs]
    exact Stack.exists_run_closings hys

/-- **Lexemes end too early exactly if they fail and more of them make up for it**, and then as many
closing parentheses as lists are open always do. Any other error stays as it is, whatever
follows. -/
theorem unexpectedEnd_iff_completable (maxDepth : Nat) (xs : List Lexeme) :
    ((∃ l, Program.ofLexemes maxDepth xs = .error (.unexpectedEnd l)) ↔
      (∃ e, Program.ofLexemes maxDepth xs = .error e) ∧
        ∃ ys p, Program.ofLexemes maxDepth (xs ++ ys) = .ok p) ∧
    (∀ l, Program.ofLexemes maxDepth xs = .error (.unexpectedEnd l) →
      ∃ n, openLists? 0 (xs.map Lexeme.token) = some n ∧
        ∀ ys, ys.map Lexeme.token = List.replicate n .closing →
          ∃ p, Program.ofLexemes maxDepth (xs ++ ys) = .ok p) ∧
    ∀ e, Program.ofLexemes maxDepth xs = .error e → (∀ l, e ≠ .unexpectedEnd l) →
      ∀ ys, Program.ofLexemes maxDepth (xs ++ ys) = .error e := by
  refine ⟨⟨?_, ?_⟩, fun l => exists_ofLexemes_closings, fun e => ofLexemes_append_of_error⟩
  · rintro ⟨l, h⟩
    obtain ⟨n, -, hclosings⟩ := exists_ofLexemes_closings h
    obtain ⟨p, hp⟩ := hclosings (List.replicate n { token := .closing }) (by simp)
    exact ⟨⟨_, h⟩, _, p, hp⟩
  · rintro ⟨⟨e, h⟩, ys, p, hp⟩
    obtain ⟨-, he⟩ | ⟨s, l, -, rfl⟩ := cases_of_ofLexemes_error h
    · -- The error would have stayed.
      rw [ofLexemes_append_of_error h he ys] at hp
      cases hp
    · exact ⟨l, h⟩

/-- Two lists are open where two may be, so both can be closed; a third one is refused, and no
parenthesis mends that. -/
theorem unexpectedEnd_iff_completable_full :
    (∃ p, Program.ofLexemes 2 [{ token := .opening }, { token := .opening },
      { token := .closing }, { token := .closing }] = .ok p) ∧
    ∀ ys, Program.ofLexemes 2 ([{ token := .opening }, { token := .opening },
      { token := .opening }] ++ ys) = .error (.recursionLimitExceeded 2 none) := by
  have hopen : Program.ofLexemes 2 [{ token := .opening }, { token := .opening }]
      = .error (.unexpectedEnd none) := by
    with_unfolding_all rfl
  have hfull : Program.ofLexemes 2 [{ token := .opening }, { token := .opening },
      { token := .opening }] = .error (.recursionLimitExceeded 2 none) := by
    with_unfolding_all rfl
  obtain ⟨n, hn, hclosings⟩ := (unexpectedEnd_iff_completable 2 _).2.1 none hopen
  cases hn
  exact ⟨hclosings [{ token := .closing }, { token := .closing }] rfl,
    (unexpectedEnd_iff_completable 2 _).2.2 _ hfull nofun⟩

end Program

end Sexpr
