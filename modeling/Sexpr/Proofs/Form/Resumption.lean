import Sexpr.Proofs.Form.Flatten
import Sexpr.Proofs.Form.Offence

/-!
# A parser that is used again

A parser can be asked for a form, for all forms or for whether it is at the end, as often as one
likes, and also after it has failed. Nothing is left over from one request to the next but the
lexemes that have not been taken:

* `Parser.takes_reply`: which lexemes a request takes, whether it succeeds or fails;
* `Parser.reply_log`: the log has no part in the reply;
* `Parser.mem_calls_iff_callsFor`: the forms that a request calls for are those that its body does;
* `Parser.ready_after`: between requests a parser has all its room, and a suffix of its lexemes;
* `Parser.reply_after_requests`: **after any requests, failed or not, a parser replies as a new one
  over the lexemes that are left**, takes exactly the tokens of the forms it replies with, and on
  failure all through the offending one.
-/

namespace Sexpr.Parser

/-- What a parser can be asked for. -/
inductive Request where
  /-- The next top-level form, if there is one. -/
  | next
  /-- The next top-level form, which has to be there. -/
  | form
  /-- All top-level forms that are left. -/
  | program
  /-- Whether no lexemes are left. -/
  | atEnd
deriving DecidableEq

/-- What a parser replies to a request. -/
inductive Reply where
  | next (result : Except ParseError (Option Form))
  | form (result : Except ParseError Form)
  | program (result : Except ParseError Program)
  | atEnd (answer : Bool)

/-- The forms that a parser replies with, or the error. -/
def Reply.forms : Reply → Except ParseError (List Form)
  | next result => result.map Option.toList
  | form result => result.map fun f => [f]
  | program result => result
  | atEnd _ => .ok []

/-- What the parser replies to a request, and the parser afterwards. -/
def reply (p : Parser) : Request → Reply × Parser
  | .next => (.next p.parse?.1, p.parse?.2)
  | .form => (.form p.parseForm.1, p.parseForm.2)
  | .program => (.program p.parseProgram.1, p.parseProgram.2)
  | .atEnd => (.atEnd p.isAtEnd, p)

/-- The parser after requests made one after the other. -/
def after (p : Parser) (requests : List Request) : Parser :=
  requests.foldl (fun p request => (p.reply request).2) p

/-- A request calls for a top-level form; one for all forms that are left calls for each of them. -/
inductive CallsFor : Parser → Request → Frame → Prop where
  | first {p : Parser} {request : Request} {x : Lexeme} {rest : List Lexeme}
    (hp : p.pending = x :: rest) (hrequest : request ≠ .atEnd) :
    CallsFor p request (.form (p.withPending rest) x)
  | later {p q : Parser} {f : Form} {c : Frame} (hp : p.parse? = (.ok (some f), q))
    (h : CallsFor q .program c) : CallsFor p .program c

/-! ## One request -/

variable {p : Parser}

theorem parseForm_nil (hp : p.pending = []) : p.parseForm = (.error (.unexpectedEnd none), p) := by
  rw [parseForm, parse?_nil hp]

theorem parseForm_cons {x : Lexeme} {rest : List Lexeme} (hp : p.pending = x :: rest) :
    p.parseForm = ((p.withPending rest).form x).val := by
  rw [parseForm, parse?_cons hp]
  rcases ((p.withPending rest).form x).val with ⟨result, q⟩
  cases result <;> rfl

theorem frame_parseProgram_go (p : Parser) (found : List Form) :
    ∃ log, (parseProgram.go p found).2
      = { p.withPending (parseProgram.go p found).2.pending with log } := by
  fun_induction parseProgram.go p found with
  | case1 p found f q h ih =>
    obtain ⟨log, hlog⟩ := ih
    have hq := p.frame_parse?
    rw [h] at hq
    have hq' : q = p.withPending q.pending := hq
    refine ⟨log, ?_⟩
    rw [hlog, hq']
    rfl
  | case2 p found q h =>
    obtain ⟨-, rfl⟩ := pending_eq_nil_of_parse? h
    exact ⟨_, rfl⟩
  | case3 p found e q h =>
    have hq := p.frame_parse?
    rw [h] at hq
    exact ⟨p.log, hq⟩

/-- A request changes the lexemes that are left and the log, and nothing else. -/
theorem frame_reply (p : Parser) (request : Request) :
    ∃ log, (p.reply request).2 = { p.withPending (p.reply request).2.pending with log } := by
  cases request with
  | next => exact ⟨p.log, p.frame_parse?⟩
  | form =>
    by_cases hp : p.pending = []
    · exact ⟨p.log, by rw [reply, parseForm_nil hp]; rfl⟩
    · obtain ⟨x, rest, hp⟩ := List.exists_cons_of_ne_nil hp
      refine ⟨p.log, ?_⟩
      rw [reply, parseForm_cons hp]
      exact (descends_form (p.withPending rest) x).frame
  | program => exact frame_parseProgram_go p []
  | atEnd => exact ⟨p.log, rfl⟩

/-- A request takes the lexemes of the forms in the reply, or all through the first one that is
refused. Only a form that has to be there, where no lexemes are left, is an error with nothing to
take. -/
theorem takes_reply (hroom : p.room = p.maxDepth) (request : Request)
    (h : p.pending = [] → request ≠ .form) :
    Stack.Takes p.maxDepth {} p.pending (p.reply request).2.pending
      (fun fs => { done := fs.reverse }) (p.reply request).1.forms := by
  cases request with
  | next =>
    refine (takes_parse? hroom []).map fun f => ?_
    cases f <;> rfl
  | form =>
    obtain ⟨x, rest, hp⟩ := List.exists_cons_of_ne_nil fun hp => h hp rfl
    rw [reply, parseForm_cons hp, hp]
    have hform : (p.withPending rest).room = (p.withPending rest).maxDepth := hroom
    exact (takes_form hform x []).map fun f => rfl
  | program => exact (takes_parseProgram_go p [] hroom).1
  | atEnd => exact .taken (List.nil_append _).symm Stack.takeAll_nil

theorem suffix_reply (hroom : p.room = p.maxDepth) (request : Request) :
    (p.reply request).2.pending <:+ p.pending := by
  by_cases h : p.pending = [] → request ≠ .form
  · exact (takes_reply hroom request h).suffix
  · obtain ⟨hp, rfl⟩ : p.pending = [] ∧ request = .form := by simpa using h
    have hsame : (p.reply .form).2.pending = p.pending := by rw [reply, parseForm_nil hp]
    exact ⟨[], hsame⟩

theorem parse?_log (p : Parser) (log : Log) :
    parse? { p with log } = (p.parse?.1, { p.parse?.2 with log }) := by
  by_cases hp : p.pending = []
  · rw [parse?_nil hp]
    exact parse?_nil hp
  · obtain ⟨x, rest, hp⟩ := List.exists_cons_of_ne_nil hp
    have hform : (form { p.withPending rest with log } x).val = _ :=
      (descends_form (p.withPending rest) x).run_withLog log
    rw [parse?_cons hp, parse?_cons (p := { p with log }) hp]
    show ((form { p.withPending rest with log } x).val.1.map some,
      (form { p.withPending rest with log } x).val.2) = _
    rw [hform]

/-- The log has no part in the reply. -/
theorem reply_log (hroom : p.room = p.maxDepth) (log : Log) (request : Request) :
    (reply { p with log } request).1 = (p.reply request).1 := by
  cases request with
  | next => rw [reply, reply, parse?_log]
  | form =>
    rw [reply, reply, parseForm, parseForm, parse?_log]
    rcases p.parse? with ⟨_ | _ | _, q⟩ <;> rfl
  | program =>
    rw [reply, reply, parseProgram, parseProgram, parseProgram_go_eq_run p [] hroom,
      parseProgram_go_eq_run { p with log } [] hroom]
  | atEnd => rfl

/-! ## The calls of a request -/

/-- What asking for all forms that are left does behind the forms found, with its calls left
open. -/
def programBody (p : Parser) (found : List Form) : CallTree Frame Frame.Value (Reply × Parser) :=
  match _h : p.pending with
  | [] =>
    .done (.program (.ok found.reverse),
      { p with log := p.log.push (.parsedProgram found.length) })
  | x :: rest =>
    .call 0 (.form (p.withPending rest) x) fun
      | ⟨(.ok f, q), _⟩ => programBody q (f :: found)
      | ⟨(.error e, q), _⟩ => .done (.program (.error e), q)
termination_by p.pending.length
decreasing_by
  rename_i h
  have hq : q.pending.length ≤ rest.length := h
  rw [_h, List.length_cons]
  omega

/-- What a request does, with the calls that it makes left open. -/
def Request.body (p : Parser) : Request → CallTree Frame Frame.Value (Reply × Parser)
  | .next =>
    match p.pending with
    | [] => .done (.next (.ok none), p)
    | x :: rest =>
      .call 0 (.form (p.withPending rest) x) fun r => .done (.next (r.val.1.map some), r.val.2)
  | .form =>
    match p.pending with
    | [] => .done (.form (.error (.unexpectedEnd none)), p)
    | x :: rest =>
      .call 0 (.form (p.withPending rest) x) fun r => .done (.form r.val.1, r.val.2)
  | .program => programBody p []
  | .atEnd => .done (.atEnd p.isAtEnd, p)

theorem programBody_nil (hp : p.pending = []) (found : List Form) :
    programBody p found = .done (.program (.ok found.reverse),
      { p with log := p.log.push (.parsedProgram found.length) }) := by
  rw [programBody]
  split
  · rfl
  · simp_all

theorem programBody_cons {x : Lexeme} {rest : List Lexeme} (hp : p.pending = x :: rest)
    (found : List Form) :
    programBody p found = .call 0 (.form (p.withPending rest) x) fun r =>
      match r.val with
      | (.ok f, q) => programBody q (f :: found)
      | (.error e, q) => .done (.program (.error e), q) := by
  rw [programBody]
  split
  · simp_all
  · rename_i y rest' hy
    rw [hp] at hy
    cases hy
    congr 1
    funext r
    rcases r with ⟨⟨_ | f, q⟩, h⟩ <;> rfl

/-- A form is found, or an error, where a lexeme is left for it to start with: it is the answer to
the call for that form. -/
theorem exists_answer_of_parse? {q : Parser} (result : Except ParseError Form)
    (h : p.parse? = (result.map some, q)) :
    ∃ x rest, p.pending = x :: rest ∧
      (Frame.answer (.form (p.withPending rest) x)).val = (result, q) := by
  by_cases hp : p.pending = []
  · rw [parse?_nil hp] at h
    cases result <;> cases h
  · obtain ⟨x, rest, hp⟩ := List.exists_cons_of_ne_nil hp
    refine ⟨x, rest, hp, ?_⟩
    show ((p.withPending rest).form x).val = (result, q)
    rw [parse?_cons hp] at h
    rcases hf : ((p.withPending rest).form x).val with ⟨result', q'⟩
    rw [hf] at h
    cases result <;> cases result' <;> cases h <;> rfl

theorem eval_programBody (p : Parser) (found : List Form) :
    (programBody p found).eval Frame.answer
      = (.program (parseProgram.go p found).1, (parseProgram.go p found).2) := by
  fun_induction parseProgram.go p found with
  | case1 p found f q h ih =>
    obtain ⟨x, rest, hp, hanswer⟩ := exists_answer_of_parse? (.ok f) h
    rw [programBody_cons hp, CallTree.eval, hanswer]
    exact ih
  | case2 p found q h =>
    obtain ⟨hp, rfl⟩ := pending_eq_nil_of_parse? h
    rw [programBody_nil hp, CallTree.eval]
  | case3 p found e q h =>
    obtain ⟨x, rest, hp, hanswer⟩ := exists_answer_of_parse? (.error e) h
    rw [programBody_cons hp, CallTree.eval, hanswer, CallTree.eval]

/-- A request comes to what its body comes to, if the calls in it come to what they do. -/
theorem Request.eval_body (p : Parser) (request : Request) :
    (request.body p).eval Frame.answer = p.reply request := by
  by_cases hp : p.pending = []
  · cases request with
    | next => simp only [body, hp, CallTree.eval, reply, parse?_nil hp]
    | form => simp only [body, hp, CallTree.eval, reply, parseForm_nil hp]
    | program => exact eval_programBody p []
    | atEnd => rfl
  · obtain ⟨x, rest, hp⟩ := List.exists_cons_of_ne_nil hp
    cases request with
    | next => simp only [body, hp, CallTree.eval, reply, parse?_cons hp, Frame.answer]
    | form => simp only [body, hp, CallTree.eval, reply, parseForm_cons hp, Frame.answer]
    | program => exact eval_programBody p []
    | atEnd => rfl

theorem CallsFor.pending_ne_nil {request : Request} {c : Frame} (h : p.CallsFor request c) :
    p.pending ≠ [] := by
  intro hnil
  cases h with
  | first hp _ =>
    rw [hnil] at hp
    cases hp
  | later hp _ =>
    rw [parse?_nil hnil] at hp
    cases hp

theorem callsFor_cons_iff {x : Lexeme} {rest : List Lexeme} (hp : p.pending = x :: rest)
    {request : Request} {c : Frame} :
    p.CallsFor request c ↔ request ≠ .atEnd ∧ c = .form (p.withPending rest) x ∨
      request = .program ∧ ∃ f q, p.parse? = (.ok (some f), q) ∧ q.CallsFor .program c := by
  constructor
  · rintro (⟨hp', hrequest⟩ | ⟨hq, h⟩)
    · rw [hp] at hp'
      cases hp'
      exact .inl ⟨hrequest, rfl⟩
    · exact .inr ⟨rfl, _, _, hq, h⟩
  · rintro (⟨hrequest, rfl⟩ | ⟨rfl, f, q, hq, h⟩)
    · exact .first hp hrequest
    · exact .later hq h

theorem mem_calls_programBody {c : Frame} {k : Nat} (p : Parser) (found : List Form) :
    (k, c) ∈ (programBody p found).calls Frame.answer ↔ k = 0 ∧ p.CallsFor .program c := by
  fun_induction parseProgram.go p found with
  | case1 p found f q h ih =>
    obtain ⟨x, rest, hp, hanswer⟩ := exists_answer_of_parse? (.ok f) h
    rw [programBody_cons hp, CallTree.calls, hanswer, List.mem_cons, ih, callsFor_cons_iff hp]
    simp [h, and_or_left]
  | case2 p found q h =>
    obtain ⟨hp, rfl⟩ := pending_eq_nil_of_parse? h
    rw [programBody_nil hp, CallTree.calls]
    exact ⟨fun hc => absurd hc List.not_mem_nil, fun hc => absurd hp hc.2.pending_ne_nil⟩
  | case3 p found e q h =>
    obtain ⟨x, rest, hp, hanswer⟩ := exists_answer_of_parse? (.error e) h
    rw [programBody_cons hp, CallTree.calls, hanswer, callsFor_cons_iff hp]
    simp [h, CallTree.calls]

/-- **A request calls for the forms that its body calls for**, in no list. -/
theorem mem_calls_iff_callsFor {request : Request} {c : Frame} {k : Nat} :
    (k, c) ∈ (request.body p).calls Frame.answer ↔ k = 0 ∧ p.CallsFor request c := by
  by_cases hprogram : request = .program
  · rw [hprogram, Request.body]
    exact mem_calls_programBody p []
  by_cases hp : p.pending = []
  · have hnil : (request.body p).calls Frame.answer = [] := by
      cases request <;> simp_all [Request.body, CallTree.calls]
    rw [hnil]
    exact ⟨fun hc => absurd hc List.not_mem_nil, fun hc => absurd hp hc.2.pending_ne_nil⟩
  · obtain ⟨x, rest, hp⟩ := List.exists_cons_of_ne_nil hp
    rw [callsFor_cons_iff hp]
    cases request <;> simp_all [Request.body, CallTree.calls]

/-! ## Requests in a row -/

/-- A parser between requests, if it was started with these lexemes: it has all its room, and the
lexemes that are left are a suffix of them. -/
structure Ready (maxDepth : Nat) (xs : List Lexeme) (p : Parser) : Prop where
  maxDepth_eq : p.maxDepth = maxDepth
  room_eq : p.room = maxDepth
  suffix : p.pending <:+ xs

namespace Ready

variable {maxDepth : Nat} {xs : List Lexeme}

theorem room_eq_maxDepth (h : Ready maxDepth xs p) : p.room = p.maxDepth :=
  h.room_eq.trans h.maxDepth_eq.symm

theorem reply (h : Ready maxDepth xs p) (request : Request) :
    Ready maxDepth xs (p.reply request).2 := by
  have hsuffix := suffix_reply h.room_eq_maxDepth request
  obtain ⟨log, hlog⟩ := p.frame_reply request
  refine ⟨?_, ?_, hsuffix.trans h.suffix⟩
  · rw [hlog]
    exact h.maxDepth_eq
  · rw [hlog]
    exact h.room_eq

/-- A parser between requests is a new one over the lexemes that are left, but for the log, which
has no part in the reply. -/
theorem reply_eq (h : Ready maxDepth xs p) (request : Request) :
    (p.reply request).1 = ((start maxDepth p.pending).reply request).1 := by
  have hstart : { p with log := #[] } = start maxDepth p.pending := by
    rw [start, h.maxDepth_eq, h.room_eq]
  rw [← hstart]
  exact (reply_log h.room_eq_maxDepth #[] request).symm

/-- The lexemes that are taken make up the forms in the reply. -/
theorem exists_taken (h : Ready maxDepth xs p) {request : Request} {fs : List Form}
    (hfs : (p.reply request).1.forms = .ok fs) :
    ∃ front, p.pending = front ++ (p.reply request).2.pending ∧
      Program.ofLexemes maxDepth front = .ok fs ∧
      Form.flattenAll fs = front.map fun x => x.token.canonical := by
  have hform : p.pending = [] → request ≠ .form := by
    rintro hnil rfl
    rw [Parser.reply, parseForm_nil hnil] at hfs
    cases hfs
  have htakes := takes_reply h.room_eq_maxDepth request hform
  rw [hfs, h.maxDepth_eq] at htakes
  cases htakes with
  | @taken front _ hpending hfront =>
    have hparse : Program.ofLexemes maxDepth front = .ok fs := by
      rw [Program.ofLexemes_eq_run, Stack.run_eq, hfront]
      simp [Stack.finish]
    exact ⟨front, hpending, hparse, (Program.flatten_of_ofLexemes hparse).2.2⟩

/-- The last lexeme that is taken is the offending one, or nothing is left and a list is open. -/
theorem exists_refused (h : Ready maxDepth xs p) {request : Request} {e : ParseError}
    (he : (p.reply request).1.forms = .error e) (hne : p.pending ≠ []) :
    (∃ front x s, p.pending = front ++ x :: (p.reply request).2.pending ∧
      Stack.takeAll maxDepth {} front = .ok s ∧ s.Offends maxDepth x e) ∨
    ∃ s location found rest, (p.reply request).2.pending = [] ∧
      Stack.takeAll maxDepth {} p.pending = .ok s ∧
      s.opened = (location, found) :: rest ∧ e = .unexpectedEnd location := by
  have htakes := takes_reply h.room_eq_maxDepth request fun hnil => absurd hnil hne
  rw [he, h.maxDepth_eq] at htakes
  cases htakes with
  | @refused front x s _ hpending hfront hx =>
    exact .inl ⟨front, x, s, hpending, hfront, Stack.step_eq_error_iff.1 hx⟩
  | @ended s _ hrest hpending hs =>
    obtain ⟨location, found, rest, hopened, rfl⟩ := Stack.finish_eq_error_iff.1 hs
    exact .inr ⟨s, location, found, rest, hrest, hpending, hopened, rfl⟩

/-- With every list that is open there is room for one less. -/
theorem room_add (h : Ready maxDepth xs p) {request : Request} {c d : Frame} {k : Nat}
    (hc : p.CallsFor request c) (hd : c.Makes k d) :
    d.entry.room + k = maxDepth ∧ d.run.2.room + k = maxDepth := by
  have hentry : c.entry.room = maxDepth := by
    clear hd
    induction hc with
    | first hp _ => exact h.room_eq
    | @later p q f c hp _ ih =>
      refine ih ?_
      have hq : q = (p.reply .next).2 := by rw [Parser.reply, hp]
      rw [hq]
      exact h.reply .next
  rw [← hentry]
  exact hd.room_add

end Ready

theorem ready_after (maxDepth : Nat) (xs : List Lexeme) (log : Log) (requests : List Request) :
    Ready maxDepth xs ((start maxDepth xs log).after requests) :=
  List.foldlRecOn requests _ ⟨rfl, rfl, List.suffix_refl xs⟩ fun _ h request _ => h.reply request

/-- **After any requests, failed or not, a parser replies as a new one over the lexemes that are
left**, which are a suffix of those it was started with. All its room is back, and while lists are
open there is room for that many fewer. It takes exactly the tokens of the forms that it replies
with; if it fails on a token it has taken all through the offending one, or, where a list is open at
the end, everything. -/
theorem reply_after_requests (maxDepth : Nat) (xs : List Lexeme) (log : Log)
    (requests : List Request) (request : Request) :
    let p := (start maxDepth xs log).after requests
    let q := (p.reply request).2
    (p.room = maxDepth ∧ q.room = maxDepth ∧ ∀ c k d, p.CallsFor request c → c.Makes k d →
      d.entry.room + k = maxDepth ∧ d.run.2.room + k = maxDepth) ∧
    (p.pending <:+ xs ∧ q.pending <:+ p.pending) ∧
    (p.reply request).1 = ((start maxDepth p.pending).reply request).1 ∧
    (∀ fs, (p.reply request).1.forms = .ok fs → ∃ front, p.pending = front ++ q.pending ∧
      Program.ofLexemes maxDepth front = .ok fs ∧
      Form.flattenAll fs = front.map fun x => x.token.canonical) ∧
    ∀ e, (p.reply request).1.forms = .error e → p.pending ≠ [] →
      (∃ front x s, p.pending = front ++ x :: q.pending ∧
        Stack.takeAll maxDepth {} front = .ok s ∧ s.Offends maxDepth x e) ∨
      ∃ s location found rest, q.pending = [] ∧ Stack.takeAll maxDepth {} p.pending = .ok s ∧
        s.opened = (location, found) :: rest ∧ e = .unexpectedEnd location := by
  intro p q
  have hp : Ready maxDepth xs p := ready_after maxDepth xs log requests
  have hq : Ready maxDepth xs q := hp.reply request
  exact ⟨⟨hp.room_eq, hq.room_eq, fun c k d hc hd => hp.room_add hc hd⟩,
    ⟨hp.suffix, suffix_reply hp.room_eq_maxDepth request⟩, hp.reply_eq request,
    fun fs hfs => hp.exists_taken hfs, fun e he hne => hp.exists_refused he hne⟩

/-- The second of two lists is one too many. The call for the first one returns with its room, and
the atom that is left is a form for the next request. -/
theorem reply_after_requests_tooDeep :
    (∃ front x s, [{ token := .opening }, { token := .opening }, { token := .atom "a" }]
        = front ++ x :: [{ token := .atom "a" }] ∧
      Stack.takeAll 1 {} front = .ok s ∧ s.Offends 1 x (.recursionLimitExceeded 1 none)) ∧
    (elements ⟨1, [{ token := .opening }, { token := .atom "a" }], 0, #[]⟩ none []).val.2.room + 1
      = 1 ∧
    ∃ front, [{ token := .atom "a" }] = front ++ [] ∧
      Program.ofLexemes 1 front = .ok [.symbol "a"] ∧
      Form.flattenAll [.symbol "a"] = front.map fun x => x.token.canonical := by
  obtain ⟨⟨-, -, hrooms⟩, -, -, -, hfailed⟩ := reply_after_requests 1
    [{ token := .opening }, { token := .opening }, { token := .atom "a" }] #[] [] .next
  obtain ⟨-, -, -, htaken, -⟩ := reply_after_requests 1
    [{ token := .opening }, { token := .opening }, { token := .atom "a" }] #[] [.next] .form
  refine ⟨?_, (hrooms _ 1 _ (.first rfl nofun) (.list .self rfl rfl)).2, ?_⟩
  · have herror := hfailed (.recursionLimitExceeded 1 none) (by with_unfolding_all rfl) nofun
    rcases herror with hoffends | ⟨s, location, found, rest, -, -, -, hend⟩
    · with_unfolding_all exact hoffends
    · cases hend
  · have hform := htaken [.symbol "a"] (by with_unfolding_all rfl)
    with_unfolding_all exact hform

end Sexpr.Parser
