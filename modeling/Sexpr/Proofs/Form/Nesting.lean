import Sexpr.Proofs.Form.Offence

/-!
# How many lists are open

To know how many lists are open behind some tokens it is enough to count parentheses; no form has to
be put together for it. `openLists?` counts them, and the stack machine is seen to agree:

* `Stack.openedBy_takeAll`: every open list of the machine was opened by one of the lexemes taken,
  and the lists that were opened behind that one and in it have been closed;
* `Stack.openLists?_of_takeAll`: so the machine has as many lists open as the count says;
* `Stack.openLists?_ne_of_takeAll`: as long as lexemes are taken, none of them opens a list where as
  many are open as may be.
-/

namespace Sexpr

/-- How many lists are open behind tokens, if so many are open in front of them; none if one of them
has nothing to close. -/
def openLists? : Nat → List Token → Option Nat
  | k, [] => some k
  | k, .opening :: ts => openLists? (k + 1) ts
  | 0, .closing :: _ => none
  | k + 1, .closing :: ts => openLists? k ts
  | k, _ :: ts => openLists? k ts

/-- Every list that the tokens open they also close, and no other. -/
def Balanced (ts : List Token) : Prop := openLists? 0 ts = some 0

theorem openLists?_append (k : Nat) (ts us : List Token) :
    openLists? k (ts ++ us) = (openLists? k ts).bind (openLists? · us) := by
  fun_induction openLists? k ts <;> simp_all [openLists?]

/-- Lists that are open around the tokens stay open. -/
theorem openLists?_add {k j : Nat} {ts : List Token} (h : openLists? k ts = some j) (n : Nat) :
    openLists? (n + k) ts = some (n + j) := by
  fun_induction openLists? k ts with
  | case1 k =>
    cases h
    rfl
  | case2 k ts ih => exact ih h
  | case3 ts => cases h
  | case4 k ts ih => exact ih h
  | case5 k t ts hopening _ hclosing ih =>
    cases t with
    | opening => exact absurd rfl hopening
    | closing => cases k <;> simp at *
    | atom text | marker m => exact ih h

namespace Balanced

variable {ts us : List Token}

theorem openLists?_eq (h : Balanced ts) (k : Nat) : openLists? k ts = some k := openLists?_add h k

theorem append (ht : Balanced ts) (hu : Balanced us) : Balanced (ts ++ us) := by
  rw [Balanced, openLists?_append, show openLists? 0 ts = some 0 from ht]
  exact hu

/-- Parentheses around balanced tokens are balanced with them. -/
theorem enclosed (h : Balanced ts) : Balanced (.opening :: (ts ++ [.closing])) := by
  rw [Balanced, openLists?, openLists?_append, h.openLists?_eq]
  rfl

end Balanced

namespace Stack

/-- Lists are open that were opened at these places, the innermost first: each by a lexeme behind
which, up to the lexeme that opened the next one, all is balanced. -/
def OpenedBy : List (Option Location) → List Lexeme → Prop
  | [], xs => Balanced (xs.map Lexeme.token)
  | location :: rest, xs => ∃ us x vs, xs = us ++ x :: vs ∧ x.token = .opening ∧
      x.location = location ∧ Balanced (vs.map Lexeme.token) ∧ OpenedBy rest us

variable {maxDepth : Nat} {s t : Stack} {x : Lexeme} {xs ys : List Lexeme}
  {ps : List (Option Location)}

theorem OpenedBy.append (h : OpenedBy ps xs) (hys : Balanced (ys.map Lexeme.token)) :
    OpenedBy ps (xs ++ ys) := by
  cases ps with
  | nil =>
    rw [OpenedBy, List.map_append]
    exact Balanced.append h hys
  | cons location rest =>
    obtain ⟨us, x, vs, rfl, hx, hlocation, hvs, hus⟩ := h
    refine ⟨us, x, vs ++ ys, by simp, hx, hlocation, ?_, hus⟩
    rw [List.map_append]
    exact hvs.append hys

/-- As many lists are open as there are places. -/
theorem OpenedBy.openLists?_eq (h : OpenedBy ps xs) :
    openLists? 0 (xs.map Lexeme.token) = some ps.length := by
  induction ps generalizing xs with
  | nil => exact h
  | cons location rest ih =>
    obtain ⟨us, x, vs, rfl, hx, -, hvs, hus⟩ := h
    rw [List.map_append, List.map_cons, hx, openLists?_append, ih hus]
    exact hvs.openLists?_eq _

/-- The places where the lists that are open were opened. -/
def places (s : Stack) : List (Option Location) := s.opened.map Prod.fst

@[simp] theorem places_push (f : Form) : (s.push f).places = s.places := by
  obtain ⟨done, opened⟩ := s
  cases opened <;> rfl

/-- What a lexeme that is taken does to the lists that are open. -/
theorem places_step (h : s.step maxDepth x = .ok t) :
    (x.token = .opening ∧ t.places = x.location :: s.places) ∨
    (x.token = .closing ∧ ∃ location, s.places = location :: t.places) ∨
    (x.token ≠ .opening ∧ x.token ≠ .closing ∧ t.places = s.places) := by
  rcases step_cases h with ⟨hx, -, rfl⟩ | ⟨u, location, found, hx, rfl, rfl⟩ |
    ⟨text, a, hx, -, rfl⟩ | ⟨m, hx, rfl⟩
  · exact .inl ⟨hx, rfl⟩
  · refine .inr (.inl ⟨hx, location, ?_⟩)
    rw [places_push]
    rfl
  · exact .inr (.inr ⟨by simp [hx], by simp [hx], places_push _⟩)
  · exact .inr (.inr ⟨by simp [hx], by simp [hx], places_push _⟩)

/-- One more lexeme is taken. -/
theorem openedBy_step (hs : OpenedBy s.places xs) (h : s.step maxDepth x = .ok t) :
    OpenedBy t.places (xs ++ [x]) := by
  rcases places_step h with ⟨hx, ht⟩ | ⟨hx, location, hp⟩ | ⟨hopening, hclosing, ht⟩
  · rw [ht]
    exact ⟨xs, x, [], rfl, hx, rfl, rfl, hs⟩
  · -- The innermost list is closed: all that stands from its opening on is balanced now.
    rw [hp] at hs
    obtain ⟨us, y, vs, rfl, hy, -, hvs, hus⟩ := hs
    rw [List.append_assoc, List.cons_append]
    refine hus.append ?_
    rw [List.map_cons, List.map_append, hy, List.map_singleton, hx]
    exact hvs.enclosed
  · rw [ht]
    refine hs.append ?_
    rw [List.map_singleton]
    cases htoken : x.token with
    | opening => exact absurd htoken hopening
    | closing => exact absurd htoken hclosing
    | atom text | marker m => rfl

theorem openedBy_run (hs : OpenedBy s.places xs) (h : s.takeAll maxDepth ys = .ok t) :
    OpenedBy t.places (xs ++ ys) := by
  induction ys generalizing s xs with
  | nil =>
    cases h
    rwa [List.append_nil]
  | cons y ys ih =>
    cases hstep : s.step maxDepth y with
    | error e =>
      rw [takeAll_cons_error hstep] at h
      cases h
    | ok u =>
      rw [takeAll_cons_ok hstep] at h
      rw [List.append_cons]
      exact ih (openedBy_step hs hstep) h

/-- Every list that is open was opened by one of the lexemes taken. -/
theorem openedBy_takeAll (h : Stack.takeAll maxDepth {} xs = .ok s) : OpenedBy s.places xs := by
  have hnone : OpenedBy (places {}) [] := rfl
  exact openedBy_run hnone h

theorem openLists?_of_takeAll (h : Stack.takeAll maxDepth {} xs = .ok s) :
    openLists? 0 (xs.map Lexeme.token) = some s.opened.length := by
  rw [(openedBy_takeAll h).openLists?_eq, places, List.length_map]

theorem exists_takeAll_of_append (h : s.takeAll maxDepth (xs ++ ys) = .ok t) :
    ∃ u, s.takeAll maxDepth xs = .ok u ∧ u.takeAll maxDepth ys = .ok t := by
  cases hxs : s.takeAll maxDepth xs with
  | ok u => exact ⟨u, rfl, (takeAll_append hxs).symm.trans h⟩
  | error e =>
    obtain ⟨before, y, after, u, rfl, hbefore, hoffends⟩ := takeAll_eq_error_iff.1 hxs
    have herror : s.takeAll maxDepth (before ++ y :: after ++ ys) = .error e :=
      takeAll_eq_error_iff.2 ⟨before, y, after ++ ys, u, by simp, hbefore, hoffends⟩
    rw [herror] at h
    cases h

/-- None of the lexemes taken opens a list where as many are open as may be. -/
theorem openLists?_ne_of_takeAll (h : Stack.takeAll maxDepth {} xs = .ok s) {ts : List Token}
    (hts : ts ++ [.opening] <+: xs.map Lexeme.token) : openLists? 0 ts ≠ some maxDepth := by
  obtain ⟨us, hus⟩ := hts
  rw [List.append_assoc, List.singleton_append] at hus
  obtain ⟨before, rest, rfl, rfl, hrest⟩ := List.map_eq_append_iff.1 hus.symm
  obtain ⟨y, after, rfl, hy, -⟩ := List.map_eq_cons_iff.1 hrest
  obtain ⟨u, hbefore, hafter⟩ := exists_takeAll_of_append h
  rw [openLists?_of_takeAll hbefore]
  rintro hfull
  have hoffends : Offends maxDepth u y (.recursionLimitExceeded maxDepth y.location) :=
    .tooDeep hy (Option.some.inj hfull)
  rw [takeAll_cons_error (step_eq_error_iff.2 hoffends)] at hafter
  cases hafter

end Stack

end Sexpr
