import Sexpr.Form.Parser
import Sexpr.Proofs.Form.CallTree

/-!
# The calls of the descent

The parser descends by calls of two kinds: for the form that starts with a lexeme, and for what is
left of a list. `Frame` is such a call, `Descends` gives the rules by which a call comes to its
result, one for each way through it, and `Frame.Makes` tells which calls are made on the way.

* `Frame.descends`: every call comes to its result by the rules, so that a fact about all calls can
  be shown rule by rule;
* `Descends.frame`: a call changes nothing but the lexemes that are left, whether it fails or not;
* `Descends.run_withLog`: the log has no part in what comes of a call;
* `Frame.Makes.room_add`: while lists are open there is room for that many fewer, neither more nor
  less, from the first call to the last;
* `Frame.eval_body`, `Frame.makes_iff_reaches`: the calls made on the way are those that the bodies
  of the functions make.
-/

namespace Sexpr.Parser

/-- A call of the descent. -/
inductive Frame where
  /-- For the form that starts with a lexeme. -/
  | form (p : Parser) (x : Lexeme)
  /-- For what is left of a list behind the elements found. -/
  | elements (p : Parser) (opened : Option Location) (found : List Form)

namespace Frame

/-- The parser when the call is made. -/
def entry : Frame → Parser
  | form p _ => p
  | elements p _ _ => p

/-- What comes of the call, and the parser when it returns. -/
def run : Frame → Except ParseError Form × Parser
  | form p x => (p.form x).val
  | elements p opened found => (p.elements opened found).val

/-- The same call with another log. -/
def withLog (log : Log) : Frame → Frame
  | form p x => form { p with log } x
  | elements p opened found => elements { p with log } opened found

end Frame

/-! ## Rules -/

/-- How a call comes to its result. -/
inductive Descends : Frame → Except ParseError Form × Parser → Prop where
  | tooDeep {p : Parser} {x : Lexeme} (hx : x.token = .opening) (hroom : p.room = 0) :
    Descends (.form p x) (.error (.recursionLimitExceeded p.maxDepth x.location), p)
  | list {p q : Parser} {x : Lexeme} {room : Nat} {result : Except ParseError Form}
    (hx : x.token = .opening) (hroom : p.room = room + 1)
    (inner : Descends (.elements (p.withRoom room) x.location []) (result, q)) :
    Descends (.form p x) (result, q.leave)
  | unmatched {p : Parser} {x : Lexeme} (hx : x.token = .closing) :
    Descends (.form p x) (.error (.unmatchedClose x.location), p)
  | atom {p : Parser} {x : Lexeme} {text : String} {a : Atom} (hx : x.token = .atom text)
    (ha : Atom.ofText? text = some a) : Descends (.form p x) (.ok (.atom a), p)
  | outOfRange {p : Parser} {x : Lexeme} {text : String} (hx : x.token = .atom text)
    (ha : Atom.ofText? text = none) :
    Descends (.form p x) (.error (.numberOutOfRange text x.location), p)
  | marker {p : Parser} {x : Lexeme} {m : Marker} (hx : x.token = .marker m) :
    Descends (.form p x) (.ok (.marker m), p)
  | ended {p : Parser} {opened : Option Location} {found : List Form} (hp : p.pending = []) :
    Descends (.elements p opened found) (.error (.unexpectedEnd opened), p)
  | closed {p : Parser} {opened : Option Location} {found : List Form} {x : Lexeme}
    {rest : List Lexeme} (hp : p.pending = x :: rest) (hx : x.token = .closing) :
    Descends (.elements p opened found) (.ok (.list found.reverse), p.withPending rest)
  /-- An error of an element is an error of the list. -/
  | failed {p q : Parser} {opened : Option Location} {found : List Form} {x : Lexeme}
    {rest : List Lexeme} {e : ParseError} (hp : p.pending = x :: rest) (hx : x.token ≠ .closing)
    (element : Descends (.form (p.withPending rest) x) (.error e, q)) :
    Descends (.elements p opened found) (.error e, q)
  /-- An element that is a form is followed by the others. -/
  | others {p q : Parser} {opened : Option Location} {found : List Form} {x : Lexeme}
    {rest : List Lexeme} {f : Form} {r : Except ParseError Form × Parser}
    (hp : p.pending = x :: rest) (hx : x.token ≠ .closing)
    (element : Descends (.form (p.withPending rest) x) (.ok f, q))
    (others : Descends (.elements q opened (f :: found)) r) :
    Descends (.elements p opened found) r

mutual

theorem descends_form (p : Parser) (x : Lexeme) : Descends (.form p x) (p.form x).val := by
  cases htoken : x.token with
  | opening =>
    cases hroom : p.room with
    | zero =>
      rw [form_opening_zero htoken hroom]
      exact .tooDeep htoken hroom
    | succ room =>
      rw [form_opening_succ htoken hroom]
      exact .list htoken hroom (descends_elements (p.withRoom room) x.location [])
  | closing =>
    rw [form_closing htoken]
    exact .unmatched htoken
  | atom text =>
    rw [form_atom htoken]
    cases ha : Atom.ofText? text with
    | none => exact .outOfRange htoken ha
    | some a => exact .atom htoken ha
  | marker m =>
    rw [form_marker htoken]
    exact .marker htoken
termination_by 2 * p.pending.length + 1
decreasing_by simp

theorem descends_elements (p : Parser) (opened : Option Location) (found : List Form) :
    Descends (.elements p opened found) (p.elements opened found).val := by
  by_cases hp : p.pending = []
  · rw [elements_nil hp]
    exact .ended hp
  obtain ⟨x, rest, hp⟩ := List.exists_cons_of_ne_nil hp
  by_cases hx : x.token = .closing
  · rw [elements_closing hp hx]
    exact .closed hp hx
  have hform := descends_form (p.withPending rest) x
  have hle := ((p.withPending rest).form x).property
  obtain ⟨result, q, hf⟩ : ∃ result q, ((p.withPending rest).form x).val = (result, q) :=
    ⟨_, _, rfl⟩
  rw [hf] at hform hle
  cases result with
  | error e =>
    rw [elements_error hp hx hf]
    exact .failed hp hx hform
  | ok f =>
    have hlt : q.pending.length < p.pending.length := by
      rw [hp, List.length_cons]
      exact Nat.lt_succ_of_le hle
    rw [elements_ok hp hx hf]
    exact .others hp hx hform (descends_elements q opened (f :: found))
termination_by 2 * p.pending.length
decreasing_by
  · rw [hp]; simp; omega
  · omega

end

/-- Every call comes to its result by the rules. -/
theorem Frame.descends : ∀ c : Frame, Descends c c.run
  | .form p x => descends_form p x
  | .elements p opened found => descends_elements p opened found

namespace Descends

variable {c : Frame} {r : Except ParseError Form × Parser}

/-- A call changes nothing but the lexemes that are left: the room that it takes it gives back. -/
theorem frame (h : Descends c r) : r.2 = c.entry.withPending r.2.pending := by
  induction h with
  | tooDeep | unmatched | atom | outOfRange | marker | ended | closed => rfl
  | @list p q x room result hx hroom inner ih =>
    have hq : q = (p.withRoom room).withPending q.pending := ih
    show q.leave = p.withPending q.pending
    rw [hq]
    simp [leave, withRoom, withPending, hroom]
  | failed hp hx element ih => exact ih
  | @others p q opened found x rest f r hp hx element others ih ih' =>
    have hq : q = p.withPending q.pending := ih
    have hr : r.2 = q.withPending r.2.pending := ih'
    show r.2 = p.withPending r.2.pending
    rw [hr, hq]
    rfl

/-- With another log the same comes of a call, and the log is handed on. -/
theorem run_withLog (h : Descends c r) (log : Log) :
    (c.withLog log).run = (r.1, { r.2 with log }) := by
  induction h with
  | @tooDeep p x hx hroom => exact form_opening_zero (p := { p with log }) hx hroom
  | @list p q x room result hx hroom inner ih =>
    have hinner : (elements { p.withRoom room with log } x.location []).val
        = (result, { q with log }) := ih
    show (form { p with log } x).val = _
    rw [form_opening_succ (p := { p with log }) hx hroom]
    show ((elements { p.withRoom room with log } x.location []).val.1,
      (elements { p.withRoom room with log } x.location []).val.2.leave) = _
    rw [hinner]
    rfl
  | @unmatched p x hx => exact form_closing (p := { p with log }) hx
  | @atom p x text a hx ha =>
    show (form { p with log } x).val = _
    rw [form_atom hx, ha]
  | @outOfRange p x text hx ha =>
    show (form { p with log } x).val = _
    rw [form_atom hx, ha]
  | @marker p x m hx => exact form_marker (p := { p with log }) hx
  | @ended p opened found hp => exact elements_nil (p := { p with log }) hp
  | @closed p opened found x rest hp hx => exact elements_closing (p := { p with log }) hp hx
  | @failed p q opened found x rest e hp hx element ih =>
    exact elements_error (p := { p with log }) hp hx ih
  | @others p q opened found x rest f r hp hx element others ih ih' =>
    exact (elements_ok (p := { p with log }) hp hx ih).trans ih'

end Descends

/-! ## Calls made on the way -/

/-- While a call runs another is made, inside of this many more lists. -/
inductive Frame.Makes (c : Frame) : Nat → Frame → Prop where
  | self : Makes c 0 c
  | list {k : Nat} {p : Parser} {x : Lexeme} {room : Nat} (h : Makes c k (.form p x))
    (hx : x.token = .opening) (hroom : p.room = room + 1) :
    Makes c (k + 1) (.elements (p.withRoom room) x.location [])
  | element {k : Nat} {p : Parser} {opened : Option Location} {found : List Form}
    {x : Lexeme} {rest : List Lexeme} (h : Makes c k (.elements p opened found))
    (hp : p.pending = x :: rest) (hx : x.token ≠ .closing) :
    Makes c k (.form (p.withPending rest) x)
  | others {k : Nat} {p q : Parser} {opened : Option Location} {found : List Form}
    {x : Lexeme} {rest : List Lexeme} {f : Form} (h : Makes c k (.elements p opened found))
    (hp : p.pending = x :: rest) (hx : x.token ≠ .closing)
    (hf : (Frame.form (p.withPending rest) x).run = (.ok f, q)) :
    Makes c k (.elements q opened (f :: found))

namespace Frame

theorem room_run (c : Frame) : c.run.2.room = c.entry.room := by
  rw [c.descends.frame]
  rfl

/-- When a call is made, and when it returns, there is room for as many fewer lists as are open. -/
theorem Makes.room_add {c d : Frame} {k : Nat} (h : Makes c k d) :
    d.entry.room + k = c.entry.room ∧ d.run.2.room + k = c.entry.room := by
  rw [room_run, and_self]
  induction h with
  | self => rfl
  | @list k p x room h hx hroom ih =>
    have hp : p.room + k = c.entry.room := ih
    show room + (k + 1) = c.entry.room
    omega
  | element h hp hx ih => exact ih
  | @others k p q opened found x rest f h hp hx hf ih =>
    have hq := room_run (.form (p.withPending rest) x)
    rw [hf] at hq
    have hroom : q.room = p.room := hq
    show q.room + k = c.entry.room
    rw [hroom]
    exact ih

/-! ### The bodies that make them -/

/-- What comes of a call is an answer to it. -/
abbrev Value (c : Frame) : Type := c.entry.Step

/-- What comes of a call, with the bound on what is left. -/
def answer : (c : Frame) → c.Value
  | form p x => p.form x
  | elements p opened found => p.elements opened found

/-- What a call does, with the calls that it makes left open. -/
def body : Frame → CallTree Frame Value (Except ParseError Form × Parser)
  | form p x =>
    match x.token with
    | .opening =>
      match p.room with
      | 0 => .done (.error (.recursionLimitExceeded p.maxDepth x.location), p)
      | room + 1 =>
        .call 1 (elements (p.withRoom room) x.location []) fun r => .done (r.val.1, r.val.2.leave)
    | .closing => .done (.error (.unmatchedClose x.location), p)
    | .atom text =>
      match Atom.ofText? text with
      | some a => .done (.ok (.atom a), p)
      | none => .done (.error (.numberOutOfRange text x.location), p)
    | .marker m => .done (.ok (.marker m), p)
  | elements p opened found =>
    match p.pending with
    | [] => .done (.error (.unexpectedEnd opened), p)
    | x :: rest =>
      if x.token = .closing then .done (.ok (.list found.reverse), p.withPending rest)
      else
        .call 0 (form (p.withPending rest) x) fun r =>
          match r.val with
          | (.error e, q) => .done (.error e, q)
          | (.ok f, q) => .call 0 (elements q opened (f :: found)) fun r => .done r.val

/-- A call comes to what its body comes to, if the calls in it come to what they do. -/
theorem eval_body (c : Frame) : c.body.eval answer = c.run := by
  cases c with
  | form p x =>
    cases htoken : x.token with
    | opening =>
      cases hroom : p.room with
      | zero =>
        rw [run, form_opening_zero htoken hroom]
        simp only [body, htoken, hroom, CallTree.eval]
      | succ room =>
        rw [run, form_opening_succ htoken hroom]
        simp only [body, htoken, hroom, CallTree.eval, answer]
    | closing =>
      rw [run, form_closing htoken]
      simp only [body, htoken, CallTree.eval]
    | atom text =>
      rw [run, form_atom htoken]
      simp only [body, htoken]
      cases Atom.ofText? text <;> rfl
    | marker m =>
      rw [run, form_marker htoken]
      simp only [body, htoken, CallTree.eval]
  | elements p opened found =>
    by_cases hp : p.pending = []
    · rw [run, elements_nil hp]
      simp only [body, hp, CallTree.eval]
    obtain ⟨x, rest, hp⟩ := List.exists_cons_of_ne_nil hp
    by_cases hx : x.token = .closing
    · rw [run, elements_closing hp hx]
      simp only [body, hp, hx, if_true, CallTree.eval]
    simp only [body, hp, hx, if_false, CallTree.eval, answer]
    rcases hf : ((p.withPending rest).form x).val with ⟨e | f, q⟩
    · rw [run, elements_error hp hx hf]
      rfl
    · rw [run, elements_ok hp hx hf]
      rfl

/-- Whatever call is made by the body of one that is made on the way is made on the way. -/
theorem Makes.of_mem_calls {c d e : Frame} {j i : Nat} (h : Makes c j e)
    (hd : (i, d) ∈ e.body.calls answer) : Makes c (j + i) d := by
  cases e with
  | form p x =>
    rw [body] at hd
    split at hd
    · rename_i hx
      split at hd
      · cases hd
      · rename_i room hroom
        obtain ⟨rfl, rfl⟩ : i = 1 ∧ d = _ := by simpa [CallTree.calls] using hd
        exact .list h hx hroom
    · cases hd
    · split at hd <;> cases hd
    · cases hd
  | elements p opened found =>
    rw [body] at hd
    split at hd
    · cases hd
    · rename_i x rest hp
      split at hd
      · cases hd
      · rename_i hx
        rw [CallTree.calls, List.mem_cons] at hd
        rcases hd with hd | hd
        · cases hd
          exact .element h hp hx
        · split at hd
          · cases hd
          · rename_i f q hf
            obtain ⟨rfl, rfl⟩ : i = 0 ∧ d = _ := by simpa [CallTree.calls] using hd
            exact .others h hp hx hf

/-- **The calls made on the way are those that the bodies make**, call after call. -/
theorem makes_iff_reaches {c d : Frame} {k : Nat} :
    Makes c k d ↔ CallTree.Reaches body answer c k d := by
  constructor
  · intro h
    induction h with
    | self => exact .self
    | @list k p x room h hx hroom ih =>
      have hmem :
          (1, elements (p.withRoom room) x.location []) ∈ (form p x).body.calls answer := by
        simp [body, hx, hroom, CallTree.calls]
      exact ih.call hmem
    | @element k p opened found x rest h hp hx ih =>
      have hmem :
          (0, form (p.withPending rest) x) ∈ (elements p opened found).body.calls answer := by
        simp [body, hp, hx, CallTree.calls]
      exact ih.call hmem
    | @others k p q opened found x rest f h hp hx hf ih =>
      have hanswer : (answer (form (p.withPending rest) x)).val = (.ok f, q) := hf
      have hmem :
          (0, elements q opened (f :: found)) ∈ (elements p opened found).body.calls answer := by
        simp [body, hp, hx, CallTree.calls, hanswer]
      exact ih.call hmem
  · intro h
    induction h with
    | self => exact .self
    | call h he ih => exact ih.of_mem_calls he

end Frame

end Sexpr.Parser
