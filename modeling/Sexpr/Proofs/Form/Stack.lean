import Sexpr.Proofs.Form.Descent

/-!
# Parsing with a stack of open lists

The parser descends from list to list. The same can be done in one pass over the lexemes, with a
stack of the lists that are open: an opening parenthesis opens one, a closing one closes the
innermost, and any other lexeme is appended to it. The descent comes to the same, its errors
included; whatever is to be said of parsing can then be said of a run of this machine, lexeme by
lexeme.

* `Parser.takes_frame`: which lexemes a call of the descent takes, and what the machine makes of
  them;
* `Program.ofLexemes_eq_run`: parsing is a run of the machine.
-/

namespace Sexpr

/-- Forms found so far, each sequence with its last form first. -/
structure Stack where
  /-- The top-level forms that are complete. -/
  done : List Form := []
  /-- The lists that are open, the innermost first: where each was opened, and its elements. -/
  opened : List (Option Location × List Form) := []

namespace Stack

/-- Opens a list behind the elements found in it so far. -/
def enter (s : Stack) (location : Option Location) (found : List Form) : Stack :=
  { s with opened := (location, found) :: s.opened }

/-- Appends a form to the innermost open list, or to the program if no list is open. -/
def push (s : Stack) (f : Form) : Stack :=
  match s.opened with
  | [] => { s with done := f :: s.done }
  | (location, found) :: rest => { s with opened := (location, f :: found) :: rest }

/-- Takes one lexeme. -/
def step (maxDepth : Nat) (s : Stack) (x : Lexeme) : Except ParseError Stack :=
  match x.token with
  | .opening =>
    if s.opened.length = maxDepth then .error (.recursionLimitExceeded maxDepth x.location)
    else .ok (s.enter x.location [])
  | .closing =>
    match s.opened with
    | [] => .error (.unmatchedClose x.location)
    | (_, found) :: rest => .ok ({ s with opened := rest }.push (.list found.reverse))
  | .atom text =>
    match Atom.ofText? text with
    | some a => .ok (s.push (.atom a))
    | none => .error (.numberOutOfRange text x.location)
  | .marker m => .ok (s.push (.marker m))

/-- The program at the end of the lexemes, where no list may be open. -/
def finish (s : Stack) : Except ParseError Program :=
  match s.opened with
  | [] => .ok s.done.reverse
  | (location, _) :: _ => .error (.unexpectedEnd location)

/-- Takes lexemes one after the other, through the first error. -/
def run (maxDepth : Nat) (s : Stack) : List Lexeme → Except ParseError Program
  | [] => s.finish
  | x :: xs =>
    match s.step maxDepth x with
    | .ok t => t.run maxDepth xs
    | .error e => .error e

section

variable {maxDepth : Nat} {s : Stack} {x : Lexeme} {xs : List Lexeme}

theorem push_enter (location : Option Location) (found : List Form) (f : Form) :
    (s.enter location found).push f = s.enter location (f :: found) := rfl

@[simp] theorem length_opened_push (f : Form) : (s.push f).opened.length = s.opened.length := by
  unfold push
  split <;> simp_all

/-- What becomes of a lexeme that is taken: a list is opened, the innermost list is closed, or the
atom or marker is appended. -/
theorem step_cases {t : Stack} (h : s.step maxDepth x = .ok t) :
    (x.token = .opening ∧ s.opened.length ≠ maxDepth ∧ t = s.enter x.location []) ∨
    (∃ (u : Stack) (location : Option Location) (found : List Form), x.token = .closing ∧
      s = u.enter location found ∧ t = u.push (.list found.reverse)) ∨
    (∃ text a, x.token = .atom text ∧ Atom.ofText? text = some a ∧ t = s.push (.atom a)) ∨
    ∃ m, x.token = .marker m ∧ t = s.push (.marker m) := by
  unfold step at h
  split at h
  · rename_i hx
    split at h
    · cases h
    · rename_i hfree
      cases h
      exact .inl ⟨hx, hfree, rfl⟩
  · rename_i hx
    split at h
    · cases h
    · rename_i location found rest hopened
      cases h
      obtain ⟨done, opened⟩ := s
      cases hopened
      exact .inr (.inl ⟨⟨done, rest⟩, location, found, hx, rfl, rfl⟩)
  · rename_i text hx
    split at h
    · rename_i a ha
      cases h
      exact .inr (.inr (.inl ⟨text, a, hx, ha, rfl⟩))
    · cases h
  · rename_i m hx
    cases h
    exact .inr (.inr (.inr ⟨m, hx, rfl⟩))

theorem run_opening (hx : x.token = .opening) (hs : s.opened.length ≠ maxDepth) :
    s.run maxDepth (x :: xs) = (s.enter x.location []).run maxDepth xs := by
  simp [run, step, hx, hs]

theorem run_closing (hx : x.token = .closing) (location : Option Location) (found : List Form) :
    (s.enter location found).run maxDepth (x :: xs)
      = (s.push (.list found.reverse)).run maxDepth xs := by
  simp [run, step, hx, enter]

theorem run_marker {m : Marker} (hx : x.token = .marker m) :
    s.run maxDepth (x :: xs) = (s.push (.marker m)).run maxDepth xs := by
  simp [run, step, hx]

theorem run_atom {text : String} {a : Atom} (hx : x.token = .atom text)
    (ha : Atom.ofText? text = some a) :
    s.run maxDepth (x :: xs) = (s.push (.atom a)).run maxDepth xs := by
  simp [run, step, hx, ha]

end

/-- Takes all lexemes of a sequence, which may leave lists open. -/
def takeAll (maxDepth : Nat) (s : Stack) (xs : List Lexeme) : Except ParseError Stack :=
  xs.foldlM (step maxDepth) s

section

variable {maxDepth : Nat} {s t : Stack} {x : Lexeme} {xs ys : List Lexeme} {e : ParseError}

@[simp] theorem takeAll_nil : s.takeAll maxDepth [] = .ok s := rfl

theorem takeAll_cons_ok (h : s.step maxDepth x = .ok t) :
    s.takeAll maxDepth (x :: xs) = t.takeAll maxDepth xs := by
  simp [takeAll, h, bind, Except.bind]

theorem takeAll_cons_error (h : s.step maxDepth x = .error e) :
    s.takeAll maxDepth (x :: xs) = .error e := by
  simp [takeAll, h, bind, Except.bind]

theorem takeAll_append (h : s.takeAll maxDepth xs = .ok t) :
    s.takeAll maxDepth (xs ++ ys) = t.takeAll maxDepth ys := by
  rw [takeAll, List.foldlM_append, show xs.foldlM (step maxDepth) s = .ok t from h]
  rfl

/-- A run takes the lexemes in front and goes on with the others from there. -/
theorem run_append : s.run maxDepth (xs ++ ys) =
    match s.takeAll maxDepth xs with
    | .ok t => t.run maxDepth ys
    | .error e => .error e := by
  induction xs generalizing s with
  | nil => rfl
  | cons x xs ih =>
    rw [List.cons_append, run]
    cases h : s.step maxDepth x with
    | ok t => rw [takeAll_cons_ok h, ← ih]
    | error e => rw [takeAll_cons_error h]

theorem run_eq : s.run maxDepth xs =
    match s.takeAll maxDepth xs with
    | .ok t => t.finish
    | .error e => .error e := by
  have h : s.run maxDepth (xs ++ []) = _ := run_append
  rw [List.append_nil] at h
  exact h

end

/-! ## What is taken of a sequence -/

/-- What comes of lexemes from a stack on, if `rest` of them are left: all others are taken and lead
to the stack that goes with the result; or the last of the others is refused, or none is left and a
list is open, and that is the error. -/
inductive Takes {α : Type} (maxDepth : Nat) (s : Stack) (xs rest : List Lexeme)
    (after : α → Stack) : Except ParseError α → Prop where
  | taken {front : List Lexeme} {a : α} (hxs : xs = front ++ rest)
    (hfront : s.takeAll maxDepth front = .ok (after a)) : Takes maxDepth s xs rest after (.ok a)
  | refused {front : List Lexeme} {x : Lexeme} {t : Stack} {e : ParseError}
    (hxs : xs = front ++ x :: rest) (hfront : s.takeAll maxDepth front = .ok t)
    (hx : t.step maxDepth x = .error e) : Takes maxDepth s xs rest after (.error e)
  | ended {t : Stack} {e : ParseError} (hrest : rest = []) (hxs : s.takeAll maxDepth xs = .ok t)
    (ht : t.finish = .error e) : Takes maxDepth s xs rest after (.error e)

namespace Takes

variable {α : Type} {maxDepth : Nat} {s t : Stack} {front xs rest : List Lexeme}
  {after : α → Stack} {result : Except ParseError α}

theorem suffix (h : Takes maxDepth s xs rest after result) : rest <:+ xs := by
  cases h with
  | taken hxs _ => exact ⟨_, hxs.symm⟩
  | @refused front x t e hxs _ _ =>
    rw [hxs, List.append_cons]
    exact List.suffix_append _ _
  | ended hrest _ _ =>
    rw [hrest]
    exact List.nil_suffix

/-- A run goes on behind the lexemes that are taken. -/
theorem run_eq : Takes maxDepth s xs rest after result → s.run maxDepth xs =
    match result with
    | .ok a => (after a).run maxDepth rest
    | .error e => .error e := by
  intro h
  cases h with
  | taken hxs hfront => rw [hxs, run_append, hfront]
  | refused hxs hfront hx =>
    rw [hxs, run_append, hfront]
    simp only [run, hx]
  | ended hrest hxs ht =>
    rw [Stack.run_eq, hxs]
    exact ht

/-- Lexemes that are taken stand in front. -/
theorem behind (h : Takes maxDepth t xs rest after result)
    (hfront : s.takeAll maxDepth front = .ok t) :
    Takes maxDepth s (front ++ xs) rest after result := by
  cases h with
  | taken hxs hmid =>
    exact .taken (by rw [hxs, List.append_assoc]) ((takeAll_append hfront).trans hmid)
  | refused hxs hmid hx =>
    exact .refused (by rw [hxs, List.append_assoc]) ((takeAll_append hfront).trans hmid) hx
  | ended hrest hxs ht => exact .ended hrest ((takeAll_append hfront).trans hxs) ht

/-- The same with another value for the stack that is reached. -/
theorem map {β : Type} {f : α → β} {after' : β → Stack} (hf : ∀ a, after' (f a) = after a)
    (h : Takes maxDepth s xs rest after result) :
    Takes maxDepth s xs rest after' (result.map f) := by
  cases h with
  | taken hxs hfront => exact .taken hxs (by rw [hf, hfront])
  | refused hxs hfront hx => exact .refused hxs hfront hx
  | ended hrest hxs ht => exact .ended hrest hxs ht

/-- An error says nothing of the stack that would have been reached. -/
theorem of_error {β : Type} {after' : β → Stack} {e : ParseError}
    (h : Takes maxDepth s xs rest after (.error e)) :
    Takes maxDepth s xs rest after' (.error e) := by
  cases h with
  | refused hxs hfront hx => exact .refused hxs hfront hx
  | ended hrest hxs ht => exact .ended hrest hxs ht

theorem cons {x : Lexeme} (hx : s.step maxDepth x = .ok t)
    (h : Takes maxDepth t xs rest after result) : Takes maxDepth s (x :: xs) rest after result :=
  h.behind ((takeAll_cons_ok hx).trans takeAll_nil)

theorem head_ok {x : Lexeme} {a : α} (hx : s.step maxDepth x = .ok (after a)) :
    Takes maxDepth s (x :: rest) rest after (.ok a) :=
  cons hx (.taken (List.nil_append rest).symm takeAll_nil)

theorem head_error {x : Lexeme} {e : ParseError} (hx : s.step maxDepth x = .error e) :
    Takes maxDepth s (x :: rest) rest after (.error e) :=
  .refused (List.nil_append (x :: rest)).symm takeAll_nil hx

end Takes

end Stack

/-! ## The descent comes to the same -/

namespace Parser

namespace Frame

/-- The lexemes that a call has to do with. -/
def lexemes : Frame → List Lexeme
  | form p x => x :: p.pending
  | elements p _ _ => p.pending

/-- The stack when the call is made, if its form is going to be appended to this one. -/
def onto (s : Stack) : Frame → Stack
  | form _ _ => s
  | elements _ opened found => s.enter opened found

end Frame

/-- A call takes the lexemes of its form, which is appended; or it takes all through the first
lexeme that the machine refuses. -/
theorem takes_frame {c : Frame} {r : Except ParseError Form × Parser} (h : Descends c r)
    (s : Stack) (hroom : c.entry.room + (c.onto s).opened.length = c.entry.maxDepth)
    (hclosing : ∀ p x, c = .form p x → x.token = .closing → s.opened = []) :
    (c.onto s).Takes c.entry.maxDepth c.lexemes r.2.pending s.push r.1 := by
  induction h generalizing s with
  | @tooDeep p x hx hfull =>
    have hopened : s.opened.length = p.maxDepth := by
      have hsum : p.room + s.opened.length = p.maxDepth := hroom
      omega
    have hstep : s.step p.maxDepth x = .error (.recursionLimitExceeded p.maxDepth x.location) := by
      simp [Stack.step, hx, hopened]
    exact .head_error hstep
  | @list p q x room result hx hsucc inner ih =>
    have hsum : p.room + s.opened.length = p.maxDepth := hroom
    have hstep : s.step p.maxDepth x = .ok (s.enter x.location []) := by
      rw [Stack.step, hx]
      exact if_neg (by omega)
    exact .cons hstep (ih s (by show room + (s.opened.length + 1) = p.maxDepth; omega) nofun)
  | @unmatched p x hx =>
    have hstep : s.step p.maxDepth x = .error (.unmatchedClose x.location) := by
      simp [Stack.step, hx, hclosing p x rfl hx]
    exact .head_error hstep
  | @atom p x text a hx ha =>
    have hstep : s.step p.maxDepth x = .ok (s.push (.atom a)) := by simp [Stack.step, hx, ha]
    exact .head_ok hstep
  | @outOfRange p x text hx ha =>
    have hstep : s.step p.maxDepth x = .error (.numberOutOfRange text x.location) := by
      simp [Stack.step, hx, ha]
    exact .head_error hstep
  | @marker p x m hx =>
    have hstep : s.step p.maxDepth x = .ok (s.push (.marker m)) := by simp [Stack.step, hx]
    exact .head_ok hstep
  | @ended p opened found hp => exact .ended hp (by rw [Frame.lexemes, hp]; rfl) rfl
  | @closed p opened found x rest hp hx =>
    have hstep : (s.enter opened found).step p.maxDepth x = .ok (s.push (.list found.reverse)) := by
      simp [Stack.step, hx, Stack.enter]
    rw [Frame.lexemes, hp]
    exact .head_ok hstep
  | @failed p q opened found x rest e hp hx element ih =>
    have helement := ih (s.enter opened found) hroom fun p' x' heq h => by
      cases heq
      exact absurd h hx
    rw [Frame.lexemes, hp]
    exact helement.of_error
  | @others p q opened found x rest f r hp hx element others ih ih' =>
    have hq : q = p.withPending q.pending := element.frame
    have helement := ih (s.enter opened found) hroom fun p' x' heq h => by
      cases heq
      exact absurd h hx
    have hothers := ih' s (by rw [hq]; exact hroom) nofun
    have hmax : q.maxDepth = p.maxDepth := by rw [hq]; rfl
    cases helement with
    | @taken front _ hxs hfront =>
      have hfront' : (s.enter opened found).takeAll q.maxDepth front
          = .ok (s.enter opened (f :: found)) := hmax ▸ hfront
      have hpending : p.pending = front ++ q.pending := hp.trans hxs
      show Stack.Takes p.maxDepth (s.enter opened found) p.pending _ _ _
      rw [hpending, ← hmax]
      exact hothers.behind hfront'

theorem parse?_nil {p : Parser} (hp : p.pending = []) : p.parse? = (.ok none, p) := by
  unfold parse?
  split <;> simp_all

theorem parse?_cons {p : Parser} {x : Lexeme} {rest : List Lexeme} (hp : p.pending = x :: rest) :
    p.parse? = (((p.withPending rest).form x).val.1.map some,
      ((p.withPending rest).form x).val.2) := by
  simp only [parse?, hp]
  rcases ((p.withPending rest).form x).val with ⟨result, q⟩
  cases result <;> rfl

/-- A call for one top-level form, made with no list open. -/
theorem takes_form {p : Parser} (hroom : p.room = p.maxDepth) (x : Lexeme) (found : List Form) :
    Stack.Takes p.maxDepth { done := found } (x :: p.pending) (p.form x).val.2.pending
      (fun f => { done := f :: found }) (p.form x).val.1 :=
  takes_frame (descends_form p x) { done := found } hroom fun _ _ _ _ => rfl

/-- The next top-level form, if lexemes are left for it, is taken. -/
theorem takes_parse? {p : Parser} (hroom : p.room = p.maxDepth) (found : List Form) :
    Stack.Takes p.maxDepth { done := found } p.pending p.parse?.2.pending
      (fun f => { done := f.toList ++ found }) p.parse?.1 := by
  by_cases hp : p.pending = []
  · rw [parse?_nil hp, hp]
    exact .taken (List.nil_append []).symm Stack.takeAll_nil
  · obtain ⟨x, rest, hp⟩ := List.exists_cons_of_ne_nil hp
    rw [parse?_cons hp, hp]
    have hform : (p.withPending rest).room = (p.withPending rest).maxDepth := hroom
    exact (takes_form hform x found).map fun f => rfl

theorem frame_parse? (p : Parser) : p.parse?.2 = p.withPending p.parse?.2.pending := by
  by_cases hp : p.pending = []
  · rw [parse?_nil hp]
    rfl
  · obtain ⟨x, rest, hp⟩ := List.exists_cons_of_ne_nil hp
    rw [parse?_cons hp]
    exact (descends_form (p.withPending rest) x).frame

/-- No form is found only where no lexemes are left. -/
theorem pending_eq_nil_of_parse? {p q : Parser} (h : p.parse? = (.ok none, q)) :
    p.pending = [] ∧ q = p := by
  by_cases hp : p.pending = []
  · rw [parse?_nil hp] at h
    exact ⟨hp, (Prod.mk.inj h).2.symm⟩
  · obtain ⟨x, rest, hp⟩ := List.exists_cons_of_ne_nil hp
    rw [parse?_cons hp] at h
    rcases hf : ((p.withPending rest).form x).val with ⟨result, q'⟩
    rw [hf] at h
    cases result <;> cases h

/-- All top-level forms that are left are taken, and the parser is at the end then. -/
theorem takes_parseProgram_go (p : Parser) (found : List Form) (hroom : p.room = p.maxDepth) :
    Stack.Takes p.maxDepth { done := found } p.pending (parseProgram.go p found).2.pending
        (fun fs => { done := fs.reverse }) (parseProgram.go p found).1 ∧
      ∀ fs, (parseProgram.go p found).1 = .ok fs → (parseProgram.go p found).2.pending = [] := by
  fun_induction parseProgram.go p found with
  | case1 p found f q h ih =>
    have htakes := takes_parse? hroom found
    have hq := p.frame_parse?
    rw [h] at htakes hq
    have hq' : q = p.withPending q.pending := hq
    have hmax : q.maxDepth = p.maxDepth := by rw [hq']; rfl
    obtain ⟨hgo, hend⟩ := ih (by rw [hq']; exact hroom)
    refine ⟨?_, hend⟩
    cases htakes with
    | taken hxs hfront =>
      rw [hxs, ← hmax]
      exact hgo.behind (hmax ▸ hfront)
  | case2 p found q h =>
    obtain ⟨hp, rfl⟩ := pending_eq_nil_of_parse? h
    rw [hp]
    refine ⟨.taken (List.nil_append []).symm ?_, fun _ _ => rfl⟩
    rw [List.reverse_reverse, Stack.takeAll_nil]
  | case3 p found e q h =>
    have htakes := takes_parse? hroom found
    rw [h] at htakes
    exact ⟨htakes.of_error, nofun⟩

/-- A parser with all its room parses what is left the way the machine does. -/
theorem parseProgram_go_eq_run (p : Parser) (found : List Form) (hroom : p.room = p.maxDepth) :
    (parseProgram.go p found).1 = Stack.run p.maxDepth { done := found } p.pending := by
  obtain ⟨htakes, hend⟩ := takes_parseProgram_go p found hroom
  rw [htakes.run_eq]
  cases h : (parseProgram.go p found).1 with
  | error e => rfl
  | ok fs => simp only [hend fs h, Stack.run, Stack.finish, List.reverse_reverse]

end Parser

theorem Program.ofLexemes_eq_run (maxDepth : Nat) (xs : List Lexeme) :
    Program.ofLexemes maxDepth xs = Stack.run maxDepth {} xs :=
  Parser.parseProgram_go_eq_run (Parser.start maxDepth xs) [] rfl

end Sexpr
