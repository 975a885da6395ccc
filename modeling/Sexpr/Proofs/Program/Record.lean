import Sexpr.Proofs.Form.Fusing
import Sexpr.Proofs.Program.Reading

/-!
# The record of a reading

Each stage of a reading adds its events to the log that the stage before it has left: scanning a
token for every lexeme, parsing the number of forms, expansion the markers as it applies them.

* `Scanner.log_collect`: the tokens of a text that is scanned;
* `Parser.log_parseProgram`: the one event of a program that is parsed;
* `Reader.log_read`: **the log of a reading that succeeds**, from its beginning to its end.
-/

namespace Sexpr

/-- The event of a lexeme that was found at a place. -/
def Lexeme.event? (x : Lexeme) : Option Event := x.location.map (.token x.token.text)

/-! ## Tokens -/

namespace Scanner

/-- A turn that yields a lexeme records it, and no other turn records anything. -/
theorem log_next (s : Scanner) :
    (∃ x token, s.next.1 = .ok (some x) ∧ x.event? = some token ∧
      s.next.2.log.toList = s.log.toList ++ [token]) ∨
    (∀ x, s.next.1 ≠ .ok (some x)) ∧ s.next.2.log = s.log := by
  rw [next]
  by_cases hfailed : s.failed = true
  · rw [if_pos hfailed]
    exact .inr ⟨by simp, rfl⟩
  · rw [if_neg hfailed, nextLexeme]
    cases hscan : Token.scan s.comments (Token.splitGap s.comments s.rest).2 with
    | finished =>
      simp only [hscan]
      exact .inr ⟨by simp, trivial⟩
    | found t behind =>
      simp only [hscan]
      exact .inl ⟨_, _, rfl, rfl, Array.toList_push⟩
    | unterminated =>
      simp only [hscan]
      exact .inr ⟨by simp, trivial⟩

/-- The lexemes that are added to those found before are recorded one by one. -/
theorem log_drain_go (s : Scanner) (found : List Lexeme) : ∃ xs tokens,
    (drain.go s found).1.1 = found.reverse ++ xs ∧ tokens.map some = xs.map Lexeme.event? ∧
      (drain.go s found).2.log.toList = s.log.toList ++ tokens := by
  fun_induction drain.go s found with
  | case1 s found x t h ih =>
    have hnext := s.log_next
    rw [h] at hnext
    rcases hnext with ⟨_, token, heq, htoken, hlog⟩ | ⟨hno, -⟩
    · cases heq
      obtain ⟨xs, tokens, hfound, htokens, hrest⟩ := ih
      refine ⟨x :: xs, token :: tokens, ?_, ?_, ?_⟩
      · rw [hfound, List.reverse_cons, List.append_assoc]
        rfl
      · rw [List.map_cons, List.map_cons, htoken, htokens]
      · rw [hrest, hlog, List.append_assoc]
        rfl
    · exact absurd rfl (hno x)
  | case2 s found t h =>
    have hnext := s.log_next
    rw [h] at hnext
    rcases hnext with ⟨_, _, heq, -⟩ | ⟨-, hlog⟩
    · cases heq
    · exact ⟨[], [], by simp, rfl, by simp [← hlog]⟩
  | case3 s found e t h =>
    have hnext := s.log_next
    rw [h] at hnext
    rcases hnext with ⟨_, _, heq, -⟩ | ⟨-, hlog⟩
    · cases heq
    · exact ⟨[], [], by simp, rfl, by simp [← hlog]⟩

/-- The log of a text that can be scanned has an event for each of its lexemes, in their order. -/
theorem log_collect {s : Scanner} {xs : List Lexeme} (h : s.collect.1 = .ok xs) :
    ∃ tokens, tokens.map some = xs.map Lexeme.event? ∧
      s.collect.2.log.toList = s.log.toList ++ tokens := by
  obtain ⟨ys, tokens, hfound, htokens, hlog⟩ := s.log_drain_go []
  rw [collect, drain] at h ⊢
  rcases hgo : drain.go s [] with ⟨⟨found, e?⟩, t⟩
  rw [hgo] at h hfound hlog
  cases e? with
  | some e => cases h
  | none =>
    cases h
    cases hfound
    exact ⟨tokens, htokens, hlog⟩

end Scanner

/-! ## Forms -/

namespace Parser

/-- A program that is parsed adds one event, the number of its forms. -/
theorem log_parseProgram_go {p : Parser} {found fs : List Form}
    (h : (parseProgram.go p found).1 = .ok fs) :
    (parseProgram.go p found).2.log = p.log.push (.parsedProgram fs.length) := by
  fun_induction parseProgram.go p found with
  | case1 p found f q hparse ih =>
    have hlog : p.parse?.2.log = p.log := by rw [p.frame_parse?]; rfl
    rw [hparse] at hlog
    rw [ih h, ← hlog]
  | case2 p found q hparse =>
    obtain ⟨-, rfl⟩ := pending_eq_nil_of_parse? hparse
    cases h
    rw [List.length_reverse]
  | case3 p found e q hparse => cases h

theorem log_parseProgram {p : Parser} {fs : Program} (h : p.parseProgram.1 = .ok fs) :
    p.parseProgram.2.log = p.log.push (.parsedProgram fs.length) :=
  log_parseProgram_go h

end Parser

/-! ## Readings -/

namespace Reader

/-- The log of a raw program: the tokens of its text, and then the number of its forms. -/
theorem log_parse {r : Reader} {text : String} {p : Program} (h : (r.parse text).1 = .ok p) :
    ∃ xs tokens, lexemes r.options.comments text = .ok xs ∧
      tokens.map some = xs.map Lexeme.event? ∧
      (r.parse text).2.log.toList = r.log.toList ++ tokens ++ [.parsedProgram p.length] := by
  have hlexemes : (Scanner.start r.options.comments text r.log).collect.1
      = lexemes r.options.comments text := by
    rw [Scanner.collect_start_eq, lexemes_eq]
  rw [parse] at h ⊢
  rcases hscan : (Scanner.start r.options.comments text r.log).collect with ⟨result, s⟩
  rw [hscan] at h hlexemes
  cases result with
  | error e => cases h
  | ok xs =>
    obtain ⟨tokens, htokens, hlog⟩ := Scanner.log_collect (congrArg Prod.fst hscan)
    rcases hparse : (Parser.start r.options.parseDepth xs s.log).parseProgram with ⟨result, p'⟩
    simp only [hparse] at h ⊢
    cases result with
    | error e => cases h
    | ok fs =>
      cases h
      have hparsed := Parser.log_parseProgram (congrArg Prod.fst hparse)
      rw [hscan] at hlog
      rw [hparse] at hparsed
      refine ⟨xs, tokens, hlexemes.symm, htokens, ?_⟩
      show p'.log.toList = _
      rw [show p'.log = s.log.push (.parsedProgram p.length) from hparsed, Array.toList_push, hlog]
      rfl

/-- Expansion adds the markers in the order in which they are applied, and the number of forms that
are left. -/
theorem log_expand {r : Reader} {p q : Program} (h : (r.expand p).1 = .ok q) :
    (r.expand p).2.log.toList
      = r.log.toList ++ p.fusing.map .fusedMarker ++ [.expandedProgram q.length] := by
  rw [expand] at h ⊢
  rcases hexpand : r.expander.expandProgram p with ⟨result, x⟩
  rw [hexpand] at h
  cases result with
  | error e => cases h
  | ok fused =>
    cases h
    have hlog := Expander.log_expandProgram (x := r.expander) (p := p) (q := q) (by rw [hexpand])
    rw [hexpand] at hlog
    exact hlog

/-- A reading that succeeds is a raw program, its expansion, and the events around the two. -/
theorem log_read {r : Reader} {text : String} {p q : Program}
    (hparse : Program.parse r.options text = .ok p)
    (hexpand : Program.expand r.options.backquote r.options.expandDepth p = .ok q) :
    ∃ xs tokens, lexemes r.options.comments text = .ok xs ∧
      tokens.map some = xs.map Lexeme.event? ∧
      (r.read text).2.log.toList = r.log.toList ++ [.readStarted text.utf8ByteSize, .entered]
        ++ tokens ++ [.parsedProgram p.length] ++ p.fusing.map .fusedMarker
        ++ [.expandedProgram q.length, .exited] := by
  rw [read]
  generalize hstart : (r.record (.readStarted text.utf8ByteSize)).record .entered = start
  have hoptions : start.options = r.options := by rw [← hstart]; rfl
  have hlog : start.log.toList = r.log.toList ++ [.readStarted text.utf8ByteSize, .entered] := by
    rw [← hstart]
    simp [record]
  have hfirst : (start.parse text).1 = .ok p := by
    rw [parse_fst, hoptions, ← Program.parse_eq, hparse]
  have hsecond : ((start.parse text).2.expand p).1 = .ok q := by
    rw [expand_fst, options_parse, hoptions, hexpand]
  obtain ⟨xs, tokens, hlexemes, htokens, hparsed⟩ := log_parse hfirst
  have hexpanded := log_expand hsecond
  refine ⟨xs, tokens, hoptions ▸ hlexemes, htokens, ?_⟩
  rcases hs : start.parse text with ⟨result, s⟩
  rw [hs] at hfirst hsecond hparsed hexpanded
  cases hfirst
  rcases ht : s.expand p with ⟨result, t⟩
  rw [ht] at hsecond hexpanded
  cases hsecond
  simp only [ht, record, Array.toList_push]
  rw [hexpanded, hparsed, hlog]
  simp only [List.append_assoc, List.cons_append, List.nil_append]

end Reader

/-- **The log of a reading that succeeds tells all of it.** It begins with the bytes of the text;
then come the lexemes of the text with their locations, the number of forms of the raw program, its
markers in the order in which they are applied, each of them once, and at the end the number of
forms that are left. -/
theorem Program.log_of_read {options : Options} {text : String} {q : Program}
    (h : Program.read options text = .ok q) (log : Log) :
    ∃ p xs tokens, Program.parse options text = .ok p ∧ lexemes options.comments text = .ok xs ∧
      tokens.map some = xs.map Lexeme.event? ∧
      ((Reader.read { options, log } text).2.log.atLeast .trace).toList
        = log.toList ++ [.readStarted text.utf8ByteSize, .entered] ++ tokens
          ++ [.parsedProgram p.length] ++ p.fusing.map .fusedMarker
          ++ [.expandedProgram q.length, .exited] ∧
      p.fusing.Perm p.markers := by
  obtain ⟨p, hparse, hexpand⟩ := read_eq_ok_iff.1 h
  obtain ⟨xs, tokens, hlexemes, htokens, hlog⟩ :=
    Reader.log_read (r := { options, log }) hparse hexpand
  refine ⟨p, xs, tokens, hparse, hlexemes, htokens, ?_, p.fusing_perm⟩
  rw [Log.atLeast_trace, hlog]

/-- A comment and two lines. The run inside the list comes first, and either run from its end. -/
theorem Program.log_of_read_nested :
    let options : Options := { comments := true, parseDepth := 1, expandDepth := 3 }
    let p : Program := [.marker .quasiquote, .marker .function,
      .list [.marker .quote, .marker .unquote, .symbol "b"]]
    let q : Program := [.tagged "quote" (.tagged "function"
      (.list [.tagged "quote" (.tagged "unquote" (.symbol "b"))]))]
    Program.read options "\x60#'(',;\nb)" = .ok q ∧
    ∃ xs tokens, Program.parse options "\x60#'(',;\nb)" = .ok p ∧
      lexemes true "\x60#'(',;\nb)" = .ok xs ∧ tokens.map some = xs.map Lexeme.event? ∧
      ((Reader.read { options } "\x60#'(',;\nb)").2.log.atLeast .trace).toList
        = [.readStarted 10, .entered] ++ tokens ++ [.parsedProgram 3]
          ++ [.fusedMarker .unquote, .fusedMarker .quote, .fusedMarker .function,
            .fusedMarker .quasiquote]
          ++ [.expandedProgram 1, .exited] ∧
      p.fusing.Perm p.markers := by
  intro options p q
  have hparse : Program.parse { comments := true, parseDepth := 1, expandDepth := 3 }
      "\x60#'(',;\nb)" = .ok p := by
    with_unfolding_all rfl
  have hread : Program.read options "\x60#'(',;\nb)" = .ok q :=
    read_eq_ok_iff.2 ⟨p, hparse, rfl⟩
  obtain ⟨p', xs, tokens, hp, hlexemes, htokens, hlog, hperm⟩ := log_of_read hread #[]
  cases hparse.symm.trans hp
  exact ⟨hread, xs, tokens, hparse, hlexemes, htokens, hlog, hperm⟩

end Sexpr
