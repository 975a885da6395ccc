import Sexpr.Form.Shape
import Sexpr.Proofs.Form.Spelling
import Sexpr.Proofs.Form.Stack

/-!
# The tokens of a program

Flattening turns a program into the tokens it is written with, in order. A program and its tokens
determine one another, but for the spelling of integers: flattening knows only the canonical one,
and parsing looks at the value and not at the spelling.

* `Program.ofLexemes_of_flatten`: the tokens of a program parse to the program if its atoms are what
  their texts say and it nests no deeper than allowed; if it does nest deeper, that is the error
  (`Program.ofLexemes_of_flatten_tooDeep`);
* `Program.flatten_of_ofLexemes`: whatever lexemes parse are the tokens of the program they parse
  to, in canonical spelling;
* `Stack.run_canonical`: the stack machine makes the same of lexemes in canonical spelling;
* `Program.ofLexemes_eq_ok_iff_flatten`: **parsing and flattening undo one another**.
-/

namespace Sexpr

namespace Form

mutual

/-- The tokens of a form. -/
def flatten : Form → List Token
  | .atom a => [a.token]
  | .list es => .opening :: (flattenAll es ++ [.closing])

/-- The tokens of a sequence of forms. -/
def flattenAll : List Form → List Token
  | [] => []
  | e :: es => e.flatten ++ flattenAll es

end

theorem flattenAll_append (l r : List Form) :
    flattenAll (l ++ r) = flattenAll l ++ flattenAll r := by
  induction l with
  | nil => rfl
  | cons e l ih => simp [flattenAll, ih]

theorem depthAll_reverse (es : List Form) : depthAll es.reverse = depthAll es := by
  induction es with
  | nil => rfl
  | cons e es ih =>
    rw [List.reverse_cons, depthAll_append, ih]
    simp only [depthAll]
    omega

end Form

/-! ## The tokens of a program parse to the program -/

namespace Stack

variable {maxDepth : Nat}

/-- The lexeme of an atom appends the atom. -/
theorem run_atom_token {a : Atom} (ha : a.Classified) {x : Lexeme} (hx : x.token = a.token)
    (s : Stack) (rest : List Lexeme) :
    s.run maxDepth (x :: rest) = (s.push (.atom a)).run maxDepth rest := by
  cases a with
  | integer n | symbol name | text raw => exact run_atom hx (Atom.ofText?_of_token ha rfl)
  | marker m => exact run_marker hx

theorem foldl_push_enter (es : List Form) (s : Stack) (location : Option Location)
    (found : List Form) :
    es.foldl push (s.enter location found) = s.enter location (es.reverse ++ found) := by
  induction es generalizing found with
  | nil => rfl
  | cons e es ih => rw [List.foldl_cons, push_enter, ih]; simp

theorem foldl_push_done (es done : List Form) :
    es.foldl push { done } = { done := es.reverse ++ done } := by
  induction es generalizing done with
  | nil => rfl
  | cons e es ih =>
    rw [List.foldl_cons, show push { done } e = { done := e :: done } from rfl, ih]
    simp

mutual

/-- The tokens of a form append the form, whatever is open around it. -/
theorem run_flatten : ∀ (f : Form) (s : Stack) (xs rest : List Lexeme),
    (∀ a ∈ f.atoms, a.Classified) → s.opened.length + f.depth ≤ maxDepth →
    xs.map Lexeme.token = f.flatten →
    s.run maxDepth (xs ++ rest) = (s.push f).run maxDepth rest
  | .atom a, s, xs, rest, ha, _, hxs => by
    obtain ⟨x, rfl, hx⟩ := List.map_eq_singleton_iff.1 hxs
    exact run_atom_token (ha a (by simp [Form.atoms])) hx s rest
  | .list es, s, xs, rest, ha, hd, hxs => by
    obtain ⟨x, ys, rfl, hx, hys⟩ := List.map_eq_cons_iff.1 hxs
    obtain ⟨inner, last, rfl, hinner, hlast⟩ := List.map_eq_append_iff.1 hys
    obtain ⟨y, rfl, hy⟩ := List.map_eq_singleton_iff.1 hlast
    simp only [Form.depth] at hd
    rw [List.cons_append, run_opening hx (by omega), List.append_assoc,
      run_flattenAll es (s.enter x.location []) inner ([y] ++ rest) ha
        (by simp only [enter, List.length_cons]; omega) hinner,
      foldl_push_enter, List.singleton_append, run_closing hy]
    simp

theorem run_flattenAll : ∀ (es : List Form) (s : Stack) (xs rest : List Lexeme),
    (∀ a ∈ Form.atomsAll es, a.Classified) → s.opened.length + Form.depthAll es ≤ maxDepth →
    xs.map Lexeme.token = Form.flattenAll es →
    s.run maxDepth (xs ++ rest) = (es.foldl push s).run maxDepth rest
  | [], s, xs, rest, _, _, hxs => by
    rw [List.map_eq_nil_iff.1 hxs]
    rfl
  | e :: es, s, xs, rest, ha, hd, hxs => by
    obtain ⟨front, back, rfl, hfront, hback⟩ := List.map_eq_append_iff.1 hxs
    simp only [Form.depthAll] at hd
    simp only [Form.atomsAll, List.mem_append] at ha
    rw [List.append_assoc, run_flatten e s front (back ++ rest) (fun a h => ha a (.inl h))
        (by omega) hfront,
      run_flattenAll es (s.push e) back rest (fun a h => ha a (.inr h))
        (by rw [length_opened_push]; omega) hback]
    rfl

end

/-! ### If it nests too deeply -/

mutual

/-- Where a form nests more deeply than there is room for, the first list too many is refused. -/
theorem run_flatten_tooDeep : ∀ (f : Form) (s : Stack) (xs rest : List Lexeme),
    (∀ a ∈ f.atoms, a.Classified) → s.opened.length ≤ maxDepth →
    maxDepth < s.opened.length + f.depth → xs.map Lexeme.token = f.flatten →
    ∃ x ∈ xs, s.run maxDepth (xs ++ rest) = .error (.recursionLimitExceeded maxDepth x.location)
  | .atom a, s, xs, rest, _, hs, hd, _ => by
    rw [Form.depth] at hd
    omega
  | .list es, s, xs, rest, ha, hs, hd, hxs => by
    obtain ⟨x, ys, rfl, hx, hys⟩ := List.map_eq_cons_iff.1 hxs
    obtain ⟨inner, last, rfl, hinner, -⟩ := List.map_eq_append_iff.1 hys
    by_cases hfull : s.opened.length = maxDepth
    · refine ⟨x, List.mem_cons_self, ?_⟩
      simp [run, step, hx, hfull]
    · rw [Form.depth] at hd
      obtain ⟨y, hy, hrun⟩ := run_flattenAll_tooDeep es (s.enter x.location []) inner
        (last ++ rest) ha (by simp only [enter, List.length_cons]; omega)
        (by simp only [enter, List.length_cons]; omega) hinner
      refine ⟨y, List.mem_cons_of_mem _ (List.mem_append_left _ hy), ?_⟩
      rw [List.cons_append, run_opening hx hfull, List.append_assoc, hrun]

theorem run_flattenAll_tooDeep : ∀ (es : List Form) (s : Stack) (xs rest : List Lexeme),
    (∀ a ∈ Form.atomsAll es, a.Classified) → s.opened.length ≤ maxDepth →
    maxDepth < s.opened.length + Form.depthAll es → xs.map Lexeme.token = Form.flattenAll es →
    ∃ x ∈ xs, s.run maxDepth (xs ++ rest) = .error (.recursionLimitExceeded maxDepth x.location)
  | [], s, xs, rest, _, hs, hd, _ => by
    rw [Form.depthAll] at hd
    omega
  | e :: es, s, xs, rest, ha, hs, hd, hxs => by
    obtain ⟨front, back, rfl, hfront, hback⟩ := List.map_eq_append_iff.1 hxs
    simp only [Form.depthAll] at hd
    simp only [Form.atomsAll, List.mem_append] at ha
    rw [List.append_assoc]
    by_cases hdeep : maxDepth < s.opened.length + e.depth
    · obtain ⟨x, hx, hrun⟩ := run_flatten_tooDeep e s front (back ++ rest)
        (fun a h => ha a (.inl h)) hs hdeep hfront
      exact ⟨x, List.mem_append_left _ hx, hrun⟩
    · obtain ⟨x, hx, hrun⟩ := run_flattenAll_tooDeep es (s.push e) back rest
        (fun a h => ha a (.inr h)) (by rwa [length_opened_push])
        (by rw [length_opened_push]; omega) hback
      refine ⟨x, List.mem_append_right _ hx, ?_⟩
      rw [run_flatten e s front (back ++ rest) (fun a h => ha a (.inl h)) (by omega) hfront, hrun]

end

end Stack

theorem Program.ofLexemes_of_flatten {maxDepth : Nat} {p : Program} {xs : List Lexeme}
    (ha : ∀ a ∈ Form.atomsAll p, a.Classified) (hd : p.depth ≤ maxDepth)
    (hxs : xs.map Lexeme.token = Form.flattenAll p) : Program.ofLexemes maxDepth xs = .ok p := by
  have hfits : ([] : List (Option Location × List Form)).length + Form.depthAll p ≤ maxDepth := by
    rw [List.length_nil, Nat.zero_add]
    exact hd
  have hrun := Stack.run_flattenAll p {} xs [] ha hfits hxs
  rw [List.append_nil, Stack.foldl_push_done] at hrun
  rw [Program.ofLexemes_eq_run, hrun]
  simp [Stack.run, Stack.finish]

/-- The tokens of a program that nests more deeply than allowed are refused for that alone. -/
theorem Program.ofLexemes_of_flatten_tooDeep {maxDepth : Nat} {p : Program} {xs : List Lexeme}
    (ha : ∀ a ∈ Form.atomsAll p, a.Classified) (hd : maxDepth < p.depth)
    (hxs : xs.map Lexeme.token = Form.flattenAll p) : ∃ x ∈ xs,
    Program.ofLexemes maxDepth xs = .error (.recursionLimitExceeded maxDepth x.location) := by
  obtain ⟨x, hx, hrun⟩ := Stack.run_flattenAll_tooDeep p {} xs [] ha (Nat.zero_le _)
    (by rw [List.length_nil, Nat.zero_add]; exact hd) hxs
  rw [List.append_nil] at hrun
  exact ⟨x, hx, by rw [Program.ofLexemes_eq_run, hrun]⟩

/-! ## Lexemes that parse are the tokens of a program -/

namespace Stack

/-- The tokens that lead to a stack. -/
def tokens (s : Stack) : List Token :=
  Form.flattenAll s.done.reverse ++
    s.opened.reverse.flatMap fun frame => .opening :: Form.flattenAll frame.2.reverse

/-- The elements of every open list nest no deeper than there is room for them. -/
def Fits (maxDepth : Nat) : List (Option Location × List Form) → Prop
  | [] => True
  | frame :: rest => Form.depthAll frame.2 + rest.length + 1 ≤ maxDepth ∧ Fits maxDepth rest

/-- What holds of every stack that lexemes lead to. -/
structure Inv (maxDepth : Nat) (s : Stack) : Prop where
  done : ∀ a ∈ Form.atomsAll s.done, a.Classified
  opened : ∀ frame ∈ s.opened, ∀ a ∈ Form.atomsAll frame.2, a.Classified
  depth : Form.depthAll s.done ≤ maxDepth
  fits : Fits maxDepth s.opened

variable {maxDepth : Nat} {s t : Stack}

theorem tokens_enter (location : Option Location) :
    (s.enter location []).tokens = s.tokens ++ [.opening] := by
  simp [tokens, enter, Form.flattenAll]

theorem tokens_push (f : Form) : (s.push f).tokens = s.tokens ++ f.flatten := by
  obtain ⟨done, opened⟩ := s
  cases opened with
  | nil => simp [tokens, push, Form.flattenAll_append, Form.flattenAll]
  | cons frame rest => simp [tokens, push, Form.flattenAll_append, Form.flattenAll]

theorem tokens_close (location : Option Location) (found : List Form) :
    (s.push (.list found.reverse)).tokens = (s.enter location found).tokens ++ [.closing] := by
  rw [tokens_push]
  simp [tokens, enter, Form.flatten]

theorem inv_enter (hs : Inv maxDepth s) (hfree : s.opened.length < maxDepth)
    (location : Option Location) : Inv maxDepth (s.enter location []) := by
  refine ⟨hs.done, ?_, hs.depth, ?_, hs.fits⟩
  · intro frame hframe
    rcases List.mem_cons.1 hframe with rfl | hframe
    · simp [Form.atomsAll]
    · exact hs.opened frame hframe
  · simp only [Form.depthAll]
    omega

theorem inv_push (hs : Inv maxDepth s) {f : Form} (ha : ∀ a ∈ f.atoms, a.Classified)
    (hd : f.depth + s.opened.length ≤ maxDepth) : Inv maxDepth (s.push f) := by
  have hcons : ∀ es, (∀ a ∈ Form.atomsAll es, a.Classified) →
      ∀ a ∈ Form.atomsAll (f :: es), a.Classified := by
    intro es hes a h
    rw [Form.atomsAll, List.mem_append] at h
    exact h.elim (ha a) (hes a)
  obtain ⟨done, opened⟩ := s
  obtain ⟨hdone, hopened, hdepth, hfits⟩ := hs
  cases opened with
  | nil => exact ⟨hcons done hdone, hopened, Nat.max_le.2 ⟨hd, hdepth⟩, trivial⟩
  | cons frame rest =>
    have hframe := hopened frame List.mem_cons_self
    refine ⟨hdone, ?_, hdepth, ?_, hfits.2⟩
    · intro other hother
      rcases List.mem_cons.1 hother with rfl | hother
      · exact hcons frame.2 hframe
      · exact hopened other (List.mem_cons_of_mem _ hother)
    · have hfound := hfits.1
      simp only [List.length_cons] at hd
      simp only [Form.depthAll]
      omega

/-- The innermost list, closed, fits where it was opened. -/
theorem inv_close {location : Option Location} {found : List Form}
    (hs : Inv maxDepth (s.enter location found)) : Inv maxDepth (s.push (.list found.reverse)) := by
  have hs' : Inv maxDepth s :=
    ⟨hs.done, fun frame hframe => hs.opened frame (List.mem_cons_of_mem _ hframe), hs.depth,
      hs.fits.2⟩
  refine inv_push hs' ?_ ?_
  · intro a ha
    refine hs.opened (location, found) List.mem_cons_self a ?_
    rw [Form.atoms, Form.mem_atomsAll] at ha
    rw [Form.mem_atomsAll]
    simpa using ha
  · have hfits : Form.depthAll found + s.opened.length + 1 ≤ maxDepth := hs.fits.1
    rw [Form.depth, Form.depthAll_reverse]
    omega

theorem Fits.length_le {opened : List (Option Location × List Form)} (h : Fits maxDepth opened) :
    opened.length ≤ maxDepth := by
  cases opened with
  | nil => exact Nat.zero_le _
  | cons frame rest =>
    have hframe := h.1
    simp only [List.length_cons]
    omega

theorem inv_push_atom (hs : Inv maxDepth s) {a : Atom} (ha : a.Classified) :
    Inv maxDepth (s.push (.atom a)) := by
  refine inv_push hs ?_ ?_
  · intro b hb
    rw [Form.atoms, List.mem_singleton] at hb
    exact hb ▸ ha
  · rw [Form.depth, Nat.zero_add]
    exact hs.fits.length_le

/-- Every lexeme that is taken keeps the invariant and adds its token. -/
theorem inv_step {x : Lexeme} (hs : Inv maxDepth s) (h : s.step maxDepth x = .ok t) :
    Inv maxDepth t ∧ t.tokens = s.tokens ++ [x.token.canonical] := by
  rcases step_cases h with ⟨hx, hfree, rfl⟩ | ⟨u, location, found, hx, rfl, rfl⟩ |
    ⟨text, a, hx, ha, rfl⟩ | ⟨m, hx, rfl⟩
  · have hlt := Nat.lt_of_le_of_ne hs.fits.length_le hfree
    rw [hx]
    exact ⟨inv_enter hs hlt x.location, tokens_enter x.location⟩
  · rw [hx]
    exact ⟨inv_close hs, tokens_close location found⟩
  · refine ⟨inv_push_atom hs (Atom.classified_of_ofText? ha), ?_⟩
    rw [tokens_push, hx, Form.flatten, Atom.token_of_ofText? ha]
  · refine ⟨inv_push_atom hs trivial, ?_⟩
    rw [tokens_push, hx]
    rfl

theorem inv_run {xs : List Lexeme} {p : Program} (hs : Inv maxDepth s)
    (h : s.run maxDepth xs = .ok p) :
    (∀ a ∈ Form.atomsAll p, a.Classified) ∧ p.depth ≤ maxDepth ∧
      Form.flattenAll p = s.tokens ++ xs.map fun x => x.token.canonical := by
  induction xs generalizing s with
  | nil =>
    unfold run finish at h
    split at h
    · rename_i hopened
      cases h
      refine ⟨?_, ?_, ?_⟩
      · intro a ha
        refine hs.done a ?_
        rw [Form.mem_atomsAll] at ha ⊢
        simpa using ha
      · rw [Program.depth, Form.depthAll_reverse]
        exact hs.depth
      · simp [tokens, hopened]
    · cases h
  | cons x xs ih =>
    rw [run] at h
    split at h
    · rename_i t ht
      obtain ⟨hinv, htokens⟩ := inv_step hs ht
      obtain ⟨hatoms, hdepth, hflat⟩ := ih hinv h
      refine ⟨hatoms, hdepth, ?_⟩
      rw [hflat, htokens]
      simp
    · cases h

end Stack

theorem Program.flatten_of_ofLexemes {maxDepth : Nat} {p : Program} {xs : List Lexeme}
    (h : Program.ofLexemes maxDepth xs = .ok p) :
    (∀ a ∈ Form.atomsAll p, a.Classified) ∧ p.depth ≤ maxDepth ∧
      Form.flattenAll p = xs.map fun x => x.token.canonical := by
  have hinv : Stack.Inv maxDepth {} :=
    ⟨by simp [Form.atomsAll], by simp, by simp [Form.depthAll], trivial⟩
  rw [Program.ofLexemes_eq_run] at h
  exact Stack.inv_run hinv h

/-! ## Parsing looks at values -/

namespace Stack

variable {maxDepth : Nat} {s t : Stack} {x : Lexeme} {xs : List Lexeme} {p : Program}

theorem step_canonical : s.step maxDepth x.canonical = .ok t ↔ s.step maxDepth x = .ok t := by
  obtain ⟨token, location⟩ := x
  cases token with
  | opening | closing | marker m => exact Iff.rfl
  | atom text =>
    simp only [step, Lexeme.canonical, Token.canonical, Atom.ofText?_canonical]
    cases Atom.ofText? text <;> simp

theorem run_canonical :
    s.run maxDepth (xs.map Lexeme.canonical) = .ok p ↔ s.run maxDepth xs = .ok p := by
  induction xs generalizing s with
  | nil => exact Iff.rfl
  | cons x xs ih =>
    rw [List.map_cons, run, run]
    cases hstep : s.step maxDepth x with
    | ok t => simp only [step_canonical.2 hstep, ih]
    | error e =>
      cases hcanonical : s.step maxDepth x.canonical with
      | ok t =>
        rw [step_canonical.1 hcanonical] at hstep
        cases hstep
      | error e' => simp

end Stack

namespace Program

/-- **Parsing and flattening undo one another.** The tokens of a program whose atoms are what their
texts say, with places or without, parse to the program, unless it nests too deeply: that is then
the error. Lexemes parse to a program exactly if it is such a program, nests no deeper than allowed,
and has their tokens, with each integer in canonical spelling. -/
theorem ofLexemes_eq_ok_iff_flatten (maxDepth : Nat) (p : Program) (xs : List Lexeme) :
    ((∀ a ∈ Form.atomsAll p, a.Classified) → xs.map Lexeme.token = Form.flattenAll p →
      (p.depth ≤ maxDepth → Program.ofLexemes maxDepth xs = .ok p) ∧
      (maxDepth < p.depth → ∃ x ∈ xs, Program.ofLexemes maxDepth xs
        = .error (.recursionLimitExceeded maxDepth x.location))) ∧
    (Program.ofLexemes maxDepth xs = .ok p ↔
      (∀ a ∈ Form.atomsAll p, a.Classified) ∧ p.depth ≤ maxDepth ∧
        Form.flattenAll p = xs.map fun x => x.token.canonical) := by
  refine ⟨fun hatoms hxs => ⟨?_, ?_⟩, ?_, ?_⟩
  · intro hdepth
    exact Program.ofLexemes_of_flatten hatoms hdepth hxs
  · intro hdeep
    exact Program.ofLexemes_of_flatten_tooDeep hatoms hdeep hxs
  · intro h
    exact Program.flatten_of_ofLexemes h
  · rintro ⟨hatoms, hdepth, hflat⟩
    have htokens : (xs.map Lexeme.canonical).map Lexeme.token = Form.flattenAll p := by
      rw [hflat, List.map_map]
      rfl
    have hcanonical := Program.ofLexemes_of_flatten hatoms hdepth htokens
    rw [Program.ofLexemes_eq_run] at hcanonical ⊢
    exact Stack.run_canonical.1 hcanonical

/-- A hand-made symbol may hold a blank and a parenthesis, and an integer may be spelled in another
way than the program spells it. The list is one too many where none may be open. -/
theorem ofLexemes_eq_ok_iff_flatten_respelled :
    Program.ofLexemes 1 [{ token := .opening }, { token := .atom "-007" }, { token := .atom "a )" },
      { token := .closing }] = .ok [.list [.integer (-7), .symbol "a )"]] ∧
    ∃ l, Program.ofLexemes 0 ((Form.flattenAll [.list [.integer (-7), .symbol "a )"]]).map
      ({ token := · })) = .error (.recursionLimitExceeded 0 l) := by
  have hatoms : ∀ a ∈ Form.atomsAll [.list [.integer (-7), .symbol "a )"]], a.Classified := by
    decide
  refine ⟨(ofLexemes_eq_ok_iff_flatten 1 _ _).2.2 ⟨hatoms, by decide, by decide +kernel⟩, ?_⟩
  have htokens : ((Form.flattenAll [.list [.integer (-7), .symbol "a )"]]).map
      ({ token := · } : Token → Lexeme)).map Lexeme.token
        = Form.flattenAll [.list [.integer (-7), .symbol "a )"]] := rfl
  obtain ⟨x, -, herror⟩ := ((ofLexemes_eq_ok_iff_flatten 0 _ _).1 hatoms htokens).2 (by decide)
  exact ⟨x.location, herror⟩

end Program

end Sexpr
