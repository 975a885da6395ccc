import Sexpr.Proofs.Form.CallTree
import Sexpr.Proofs.Form.Passes

/-!
# An expander that is used again

An expander carries its options, the room that is left and a log. Expanding takes room for every
list that is open and leaves by several ways, but gives all of it back in each of them, so nothing
is carried over from one form or program to the next:

* `Expander.Frame.Makes.room_add`: while lists are open there is room for that many fewer, neither
  more nor less, in every call that expanding makes and when it returns;
* `Expander.Frame.eval_body`, `Expander.Frame.makes_iff_reaches`: the calls made on the way are
  those that the bodies of the functions make;
* `Expander.exists_log_after`: what is left of all requests is the log;
* `Expander.reply_after_expansions`: **after any requests, failed or not, an expander replies as a
  new one**.
-/

namespace Sexpr.Expander

/-! ## Calls made on the way -/

/-- A call made when something is expanded. -/
inductive Frame where
  /-- For a form. -/
  | form (x : Expander) (f : Form)
  /-- For what is left of a sequence behind the elements that are done. -/
  | sequence (x : Expander) (done es : List Form)
  /-- For the markers of a sequence whose lists have been expanded. -/
  | markers (x : Expander) (es : List Form)

namespace Frame

/-- The expander when the call is made. -/
def entry : Frame → Expander
  | form x _ => x
  | sequence x _ _ => x
  | markers x _ => x

/-- The expander when the call returns. -/
def exit : Frame → Expander
  | form x f => (x.expand f).2
  | sequence x done es => (x.sequence done es).2
  | markers x es => (x.fuse es).2

/-- While a call runs another is made, inside of this many more lists. -/
inductive Makes (c : Frame) : Nat → Frame → Prop where
  | self : Makes c 0 c
  | list {k room : Nat} {x : Expander} {es : List Form} (h : Makes c k (.form x (.list es)))
    (hroom : x.room = room + 1) : Makes c (k + 1) (.sequence (x.withRoom room) [] es)
  | element {k : Nat} {x : Expander} {done es : List Form} {e : Form}
    (h : Makes c k (.sequence x done (e :: es))) (he : e.isList = true) : Makes c k (.form x e)
  | behindList {k : Nat} {x y : Expander} {done es : List Form} {e f : Form}
    (h : Makes c k (.sequence x done (e :: es))) (he : e.isList = true)
    (hf : x.expand e = (.ok f, y)) : Makes c k (.sequence y (f :: done) es)
  | behindAtom {k : Nat} {x : Expander} {done es : List Form} {e : Form}
    (h : Makes c k (.sequence x done (e :: es))) (he : e.isList = false) :
    Makes c k (.sequence x (e :: done) es)
  | markers {k : Nat} {x : Expander} {done : List Form} (h : Makes c k (.sequence x done [])) :
    Makes c k (.markers x done.reverse)

/-- A call writes to the log and leaves everything else: the room that it takes it gives back. -/
theorem exists_log_exit (c : Frame) : ∃ log, c.exit = { c.entry with log } := by
  cases c with
  | form x f => exact exists_log_expand x f
  | sequence x done es => exact exists_log_sequence x done es
  | markers x es => exact exists_log_fuse_go x x.room [] [] es

theorem room_exit (c : Frame) : c.exit.room = c.entry.room := by
  obtain ⟨log, hlog⟩ := c.exists_log_exit
  rw [hlog]

/-- When a call is made, and when it returns, there is room for as many fewer lists as are open. -/
theorem Makes.room_add {c d : Frame} {k : Nat} (h : Makes c k d) :
    d.entry.room + k = c.entry.room ∧ d.exit.room + k = c.entry.room := by
  rw [room_exit, and_self]
  induction h with
  | self => rfl
  | @list k room x es h hroom ih =>
    have hx : x.room + k = c.entry.room := ih
    show room + (k + 1) = c.entry.room
    omega
  | element h he ih => exact ih
  | @behindList k x y done es e f h he hf ih =>
    have hy := room_exit (.form x e)
    rw [exit, hf] at hy
    have hroom : y.room = x.room := hy
    show y.room + k = c.entry.room
    rw [hroom]
    exact ih
  | behindAtom h he ih => exact ih
  | markers h ih => exact ih

/-! ### The bodies that make them -/

/-- What an answer to a call is. -/
def Value : Frame → Type
  | form _ _ => Except ExpandError Form × Expander
  | sequence _ _ _ | markers _ _ => Except ExpandError (List Form) × Expander

/-- What comes of a call. -/
def answer : (c : Frame) → c.Value
  | form x f => x.expand f
  | sequence x done es => x.sequence done es
  | markers x es => x.fuse es

/-- What a call does, with the calls that it makes left open. -/
def body : (c : Frame) → CallTree Frame Value c.Value
  | form x (.atom (.marker m)) => .done (.error (.danglingMarker m), x)
  | form x (.atom a) => .done (.ok (.atom a), x)
  | form x (.list es) =>
    match x.room with
    | 0 => .done (.error (.recursionLimitExceeded x.maxDepth), x)
    | room + 1 =>
      .call 1 (sequence (x.withRoom room) [] es) fun
        | (.ok fused, y) => .done (.ok (.list fused), y.leave)
        | (.error e, y) => .done (.error e, y.leave)
  | sequence x done [] => .call 0 (markers x done.reverse) .done
  | sequence x done (e :: es) =>
    if e.isList then
      .call 0 (form x e) fun
        | (.ok f, y) => .call 0 (sequence y (f :: done) es) .done
        | (.error err, y) => .done (.error err, y)
    else .call 0 (sequence x (e :: done) es) .done
  | markers x es => .done (x.fuse es)

/-- A call comes to what its body comes to, if the calls in it come to what they do. -/
theorem eval_body (c : Frame) : c.body.eval answer = c.answer := by
  cases c with
  | form x f =>
    cases f with
    | atom a => cases a <;> rfl
    | list es =>
      cases hroom : x.room with
      | zero =>
        simp only [body, answer, expand, hroom]
        rfl
      | succ room =>
        simp only [body, answer, expand, hroom, CallTree.eval]
        rcases (x.withRoom room).sequence [] es with ⟨fused | e, y⟩ <;> rfl
  | sequence x done es =>
    cases es with
    | nil => rfl
    | cons e es =>
      by_cases he : e.isList = true
      · simp only [body, answer, Expander.sequence, he, if_true, CallTree.eval]
        rcases x.expand e with ⟨err | f, y⟩ <;> rfl
      · simp only [body, answer, Expander.sequence, he]
        rfl
  | markers x es => rfl

/-- Whatever call is made by the body of one that is made on the way is made on the way. -/
theorem Makes.of_mem_calls {c d e : Frame} {j i : Nat} (h : Makes c j e)
    (hd : (i, d) ∈ e.body.calls answer) : Makes c (j + i) d := by
  cases e with
  | form x f =>
    cases f with
    | atom a => cases a <;> cases hd
    | list es =>
      rw [body] at hd
      split at hd
      · cases hd
      · rename_i room hroom
        rw [CallTree.calls, List.mem_cons] at hd
        rcases hd with hd | hd
        · cases hd
          exact .list h hroom
        · split at hd <;> cases hd
  | sequence x done es =>
    cases es with
    | nil =>
      obtain ⟨rfl, rfl⟩ : i = 0 ∧ d = _ := by simpa [body, CallTree.calls] using hd
      exact .markers h
    | cons e es =>
      rw [body] at hd
      split at hd
      · rename_i he
        rw [CallTree.calls, List.mem_cons] at hd
        rcases hd with hd | hd
        · cases hd
          exact .element h he
        · split at hd
          · rename_i f y hf
            obtain ⟨rfl, rfl⟩ : i = 0 ∧ d = _ := by simpa [CallTree.calls] using hd
            exact .behindList h he hf
          · cases hd
      · rename_i he
        obtain ⟨rfl, rfl⟩ : i = 0 ∧ d = _ := by simpa [CallTree.calls] using hd
        exact .behindAtom h (by simpa using he)
  | markers x es => cases hd

/-- **The calls made on the way are those that the bodies make**, call after call. -/
theorem makes_iff_reaches {c d : Frame} {k : Nat} :
    Makes c k d ↔ CallTree.Reaches body answer c k d := by
  constructor
  · intro h
    induction h with
    | self => exact .self
    | @list k room x es h hroom ih =>
      have hmem :
          (1, sequence (x.withRoom room) [] es) ∈ (form x (.list es)).body.calls answer := by
        simp [body, hroom, CallTree.calls]
      exact ih.call hmem
    | @element k x done es e h he ih =>
      have hmem : (0, form x e) ∈ (sequence x done (e :: es)).body.calls answer := by
        simp [body, he, CallTree.calls]
      exact ih.call hmem
    | @behindList k x y done es e f h he hf ih =>
      have hanswer : answer (form x e) = (.ok f, y) := hf
      have hmem :
          (0, sequence y (f :: done) es) ∈ (sequence x done (e :: es)).body.calls answer := by
        simp [body, he, CallTree.calls, hanswer]
      exact ih.call hmem
    | @behindAtom k x done es e h he ih =>
      have hmem :
          (0, sequence x (e :: done) es) ∈ (sequence x done (e :: es)).body.calls answer := by
        simp [body, he, CallTree.calls]
      exact ih.call hmem
    | @markers k x done h ih =>
      have hmem : (0, markers x done.reverse) ∈ (sequence x done []).body.calls answer := by
        simp [body, CallTree.calls]
      exact ih.call hmem
  · intro h
    induction h with
    | self => exact .self
    | call h he ih => exact ih.of_mem_calls he

end Frame

/-! ## Requests in a row -/

/-- What an expander can be asked to expand. -/
inductive Request where
  | form (f : Form)
  | program (p : Program)

/-- What comes of it. -/
inductive Reply where
  | form (result : Except ExpandError Form)
  | program (result : Except ExpandError Program)

/-- What the expander replies to a request, and the expander afterwards. -/
def reply (x : Expander) : Request → Reply × Expander
  | .form f => (.form (x.expand f).1, (x.expand f).2)
  | .program p => (.program (x.expandProgram p).1, (x.expandProgram p).2)

/-- The expander after requests made one after the other. -/
def after (x : Expander) (requests : List Request) : Expander :=
  requests.foldl (fun x request => (x.reply request).2) x

/-- The call that a request makes. -/
def Request.call (x : Expander) : Request → Frame
  | .form f => .form x f
  | .program p => .sequence x [] p

@[simp] theorem Request.entry_call (x : Expander) (request : Request) :
    (request.call x).entry = x := by
  cases request <;> rfl

/-- A request writes to the log and leaves everything else, whether it succeeds or not. -/
theorem exists_log_reply (x : Expander) (request : Request) :
    ∃ log, (x.reply request).2 = { x with log } := by
  cases request with
  | form f => exact exists_log_expand x f
  | program p =>
    obtain ⟨log, hlog⟩ := exists_log_sequence x [] p
    rw [reply, expandProgram]
    rcases hs : x.sequence [] p with ⟨result, y⟩
    rw [hs] at hlog
    obtain rfl : y = { x with log } := hlog
    cases result with
    | ok fused => exact ⟨_, rfl⟩
    | error e => exact ⟨log, rfl⟩

theorem exists_log_after (x : Expander) (requests : List Request) :
    ∃ log, x.after requests = { x with log } := by
  have hstart : ∃ log, x = { x with log } := ⟨x.log, rfl⟩
  refine List.foldlRecOn (motive := fun y : Expander => ∃ log, y = { x with log }) requests _
    hstart ?_
  rintro _ ⟨log, rfl⟩ request -
  exact exists_log_reply { x with log } request

/-- The log has no part in the reply. -/
theorem reply_log (x : Expander) (log : Log) (request : Request) :
    (reply { x with log } request).1 = (x.reply request).1 := by
  cases request with
  | form f => rw [reply, reply, expand_log]
  | program p => rw [reply, reply, expandProgram_log]

/-- **After any requests, failed or not, an expander replies as a new one** with the same options,
its error included. All its room is back, and while lists are open there is room for that many
fewer, whichever way the calls return. -/
theorem reply_after_expansions (backquote : BackquoteTag) (maxDepth : Nat) (log : Log)
    (requests : List Request) (request : Request) :
    let x := after { backquote, maxDepth, log } requests
    (x.room = maxDepth ∧ (x.reply request).2.room = maxDepth ∧
      ∀ k d, (request.call x).Makes k d →
        d.entry.room + k = maxDepth ∧ d.exit.room + k = maxDepth) ∧
    (x.reply request).1 = (reply { backquote, maxDepth } request).1 := by
  intro x
  obtain ⟨log', hx⟩ : ∃ log', x = { backquote, maxDepth, log := log' } :=
    exists_log_after { backquote, maxDepth, log } requests
  have hroom : x.room = maxDepth := by rw [hx]
  refine ⟨⟨hroom, ?_, ?_⟩, ?_⟩
  · obtain ⟨log'', hreply⟩ := x.exists_log_reply request
    rw [hreply]
    exact hroom
  · intro k d hd
    rw [← hroom, ← request.entry_call x]
    exact hd.room_add
  · rw [hx]
    exact reply_log { backquote, maxDepth } log' request

/-- First three lists nest where two may, then a marker is left over: neither shows in what comes of
the next request, and there is room for one more list inside of its own. -/
theorem reply_after_expansions_failed :
    ((after { backquote := .quote, maxDepth := 2 }
      [.program [.list [.list [.list []]]], .form (.list [.list [], .marker .quote])]).reply
        (.form (.list [.marker .quote, .list []]))).1
      = .form (.ok (.list [.tagged "quote" (.list [])])) ∧
    (sequence (withRoom (after { backquote := .quote, maxDepth := 2 }
      [.program [.list [.list [.list []]]], .form (.list [.list [], .marker .quote])]) 1) []
        [.marker .quote, .list []]).2.room = 1 := by
  obtain ⟨⟨hroom, -, hrooms⟩, hreply⟩ := reply_after_expansions .quote 2 #[]
    [.program [.list [.list [.list []]]], .form (.list [.list [], .marker .quote])]
    (.form (.list [.marker .quote, .list []]))
  exact ⟨hreply, Nat.succ.inj (hrooms 1 _ (.list .self hroom)).2⟩

end Sexpr.Expander
