import Sexpr.Proofs.Form.Unfinished
import Sexpr.Proofs.Program.Reading
import Sexpr.Proofs.Token.Seam

/-!
# Text that can be completed

A text that ends too early has lists open, or quoted text. Both can be closed: quoted text with a
blank and a quote, whether or not a backslash stands in front of them, and every list with a
parenthesis. So the text can be completed, provided that the parser takes all that was found in it.
For lists left open that is so; but quoted text that is never closed is reported before the parser
has seen anything, and then a lexeme in front of it may be one that no text behind it can mend.

* `exists_literal_of_unclosed`: quoted text that is open can be closed, as open lists can;
* `Program.exists_completion_iff`: **a text that ends too early can be completed exactly if the
  parser finds nothing worse in its lexemes**;
* `Program.no_completion_behind_closing`: quoted text behind a parenthesis with nothing to close.
-/

namespace Sexpr

/-! ## Closing what is open -/

namespace Stack

variable {maxDepth : Nat} {xs : List Lexeme}

/-- Lexemes are all taken exactly if nothing worse is wrong with them than an early end. -/
theorem exists_takeAll_iff : (∃ t, Stack.takeAll maxDepth {} xs = .ok t) ↔
    ∀ e, Program.ofLexemes maxDepth xs = .error e → (Error.parse e).isIncomplete = true := by
  rw [Program.ofLexemes_eq_run, run_eq]
  cases h : Stack.takeAll maxDepth {} xs with
  | ok t =>
    refine ⟨fun _ e he => ?_, fun _ => ⟨t, rfl⟩⟩
    obtain ⟨location, found, rest, -, rfl⟩ := finish_eq_error_iff.1 he
    rfl
  | error e =>
    constructor
    · rintro ⟨t, ht⟩
      cases ht
    · intro hall
      obtain ⟨before, y, after, t, -, -, hoffends⟩ := takeAll_eq_error_iff.1 h
      have hincomplete := hall e rfl
      cases hoffends <;> cases hincomplete

end Stack

/-- Closing parentheses with nothing between them. -/
def Layout.closings : Nat → Layout
  | 0 => ⟨[], []⟩
  | k + 1 => cons [] .closing (closings k)

theorem Layout.valid_closings (comments : Bool) : ∀ k, (closings k).Valid comments
  | 0 => ⟨nofun, nofun, .closed .nil, .nil⟩
  | k + 1 => valid_cons_iff.2 ⟨.nil, trivial, ⟨nofun, nofun, nofun⟩, valid_closings comments k⟩

theorem Layout.tokens_closings : ∀ k, (closings k).tokens = List.replicate k .closing
  | 0 => rfl
  | k + 1 => by
    rw [closings, tokens_cons, tokens_closings k]
    rfl

/-- Quoted text that is never closed is closed by a blank and a quote: the blank takes the place of
the character that a backslash at the end escapes. -/
theorem Token.splitQuoted?_go_close {escaped : Bool} {taken cs : List Char}
    (h : splitQuoted?.go escaped taken cs = none) (rest : List Char) :
    splitQuoted?.go escaped taken (cs ++ ' ' :: '"' :: rest)
      = some (taken.reverse ++ (cs ++ [' ', '"']), rest) := by
  fun_induction splitQuoted?.go escaped taken cs with
  | case1 escaped taken => cases escaped <;> simp [splitQuoted?.go]
  | case2 taken c cs ih => simpa [splitQuoted?.go] using ih h
  | case3 escaped taken c cs hesc hc => cases h
  | case4 escaped taken c cs hesc hc ih => simpa [splitQuoted?.go, hesc, hc] using ih h

theorem exists_literal_of_unclosed {body : List Char} (h : Token.splitQuoted? body = none)
    (comments : Bool) (p : Position) :
    ∃ x raw q, x.token = .atom raw ∧ Token.IsLiteral raw.toList ∧ ∀ more,
      scanFrom comments p ('"' :: (body ++ ' ' :: '"' :: more)) =
        (scanFrom comments q more).map (x :: ·) id := by
  have hsplit : ∀ more, Token.splitQuoted? (body ++ ' ' :: '"' :: more)
      = some (body ++ [' ', '"'], more) := Token.splitQuoted?_go_close h
  obtain ⟨inner, hinner, heq⟩ := Token.literalBody_of_splitQuoted? (hsplit [])
  refine ⟨⟨.atom (String.ofList ('"' :: (body ++ [' ', '"']))), p.toLocation⟩, _,
    p.advance ('"' :: (body ++ [' ', '"'])), rfl,
    ⟨inner, hinner, by rw [String.toList_ofList, heq]⟩, ?_⟩
  intro more
  have hscan : Token.scan comments
      (Token.splitGap comments ('"' :: (body ++ ' ' :: '"' :: more))).2
        = .found (.atom (String.ofList ('"' :: (body ++ [' ', '"'])))) more := by
    rw [splitGap_quote]
    simp [Token.scan, Marker.split?, hsplit]
  rw [scanFrom_found hscan, splitGap_quote, Token.text_atom, String.toList_ofList]
  rfl

/-! ## Completions -/

namespace Program

variable {options : Options} {text : String} {xs : List Lexeme} {t : Stack}

/-- If all lexemes are taken, and what is behind them begins anew, closing the open lists completes
the text. -/
theorem exists_completion_of_takeAll (glue : List Char) {q : Position}
    (hscan : ∀ more, scanFrom options.comments {} (text.toList ++ (glue ++ more)) =
      (scanFrom options.comments q more).map (xs ++ ·) id)
    (ht : Stack.takeAll options.parseDepth {} xs = .ok t) :
    ∃ more p, Program.parse options (text ++ more) = .ok p := by
  obtain ⟨ys, hys, htokens⟩ :=
    Layout.scanFrom_text (Layout.valid_closings options.comments t.opened.length) q
  rw [Layout.tokens_closings] at htokens
  obtain ⟨p, hp⟩ : ∃ p, t.run options.parseDepth ys = .ok p := Stack.exists_run_closings htokens
  refine ⟨String.ofList (glue ++ (Layout.closings t.opened.length).text), p, ?_⟩
  refine parse_eq_ok_iff.2 ⟨xs ++ ys, ?_, ?_⟩
  · rw [lexemes_eq, String.toList_append, String.toList_ofList, hscan, hys]
    rfl
  · rw [Program.ofLexemes_eq_run, Stack.run_append, ht]
    exact hp

/-- What was found in front of quoted text that is never closed is taken, if the text can be
completed. -/
theorem takeAll_of_completion {e : ScanError} {more : String} {p : Program}
    (hscan : scanFrom options.comments {} text.toList = (xs, some e))
    (h : Program.parse options (text ++ more) = .ok p) :
    ∃ t, Stack.takeAll options.parseDepth {} xs = .ok t := by
  obtain ⟨before, body, -, -, happend⟩ := exists_quote_of_scanFrom hscan
  obtain ⟨zs, hzs, hparse⟩ := parse_eq_ok_iff.1 h
  rw [lexemes_eq, String.toList_append, happend] at hzs
  obtain ⟨ys, rfl⟩ : ∃ ys, zs = xs ++ ys := by
    split at hzs <;> cases hzs
    rename_i hmap
    exact ⟨_, (Prod.mk.inj hmap).1.symm⟩
  rw [Program.ofLexemes_eq_run, Stack.run_append] at hparse
  cases ht : Stack.takeAll options.parseDepth {} xs with
  | ok t => exact ⟨t, rfl⟩
  | error e => simp [ht] at hparse

/-- Lists that are open are closed in a new line, out of reach of a comment. -/
theorem exists_completion_of_open_lists
    (hscan : scanFrom options.comments {} text.toList = (xs, none))
    (ht : Stack.takeAll options.parseDepth {} xs = .ok t) :
    ∃ more p, Program.parse options (text ++ more) = .ok p :=
  exists_completion_of_takeAll ['\n'] (scanFrom_append_newline hscan) ht

/-- Quoted text is closed before the lists that are open. It is one more atom, and no integer. -/
theorem exists_completion_of_open_quote {e : ScanError}
    (hscan : scanFrom options.comments {} text.toList = (xs, some e))
    (ht : Stack.takeAll options.parseDepth {} xs = .ok t) :
    ∃ more p, Program.parse options (text ++ more) = .ok p := by
  obtain ⟨before, body, -, hunclosed, happend⟩ := exists_quote_of_scanFrom hscan
  obtain ⟨x, raw, q, hx, hliteral, hclosed⟩ :=
    exists_literal_of_unclosed hunclosed options.comments (Position.advance {} before)
  have hatom : Atom.ofText? raw = some (.text raw) := by rw [Atom.ofText?, hliteral.kind]
  have htaken : Stack.takeAll options.parseDepth {} (xs ++ [x]) = .ok (t.push (.text raw)) := by
    rw [Stack.takeAll_append ht]
    exact Stack.takeAll_cons_ok (by simp [Stack.step, hx, hatom, Form.text])
  refine exists_completion_of_takeAll [' ', '"'] (q := q) ?_ htaken
  intro more
  rw [List.cons_append, List.singleton_append, happend, hclosed]
  simp [Prod.map]

/-- **A text that ends too early can be completed exactly if the parser finds nothing worse in the
lexemes** that were found in it, up to its end or up to the quoted text that is never closed. -/
theorem exists_completion_iff {e : Error} (h : Program.parse options text = .error e)
    (he : e.isIncomplete = true) :
    (∃ more p, Program.parse options (text ++ more) = .ok p) ↔
      ∀ e', Program.ofLexemes options.parseDepth
        (Scanner.start options.comments text).drain.1.1 = .error e' →
          (Error.parse e').isIncomplete = true := by
  rw [← Stack.exists_takeAll_iff, Scanner.drain_start_eq]
  rw [parse_eq, lexemes_eq] at h
  rcases hscan : scanFrom options.comments {} text.toList with ⟨xs, _ | error⟩
  · -- The error is the parser's own, so nothing worse was found, and both sides hold.
    have htaken : ∃ t, Stack.takeAll options.parseDepth {} xs = .ok t := by
      rw [Stack.exists_takeAll_iff]
      intro e' he'
      simp only [hscan, he', Except.error.injEq] at h
      rw [h]
      exact he
    obtain ⟨t, ht⟩ := htaken
    exact iff_of_true (exists_completion_of_open_lists hscan ht) ⟨t, ht⟩
  · -- The error is the scanner's, and the parser has not been asked yet.
    constructor
    · rintro ⟨more, p, hparse⟩
      exact takeAll_of_completion hscan hparse
    · rintro ⟨t, ht⟩
      exact exists_completion_of_open_quote hscan ht

/-- An open list and open quoted text with a backslash at its end. -/
theorem exists_completion_escaped :
    Program.parse {} "(a \"b\\"
      = .error (.scan (.unterminatedString ⟨1, 4⟩)) ∧
    ∃ more p, Program.parse {} ("(a \"b\\" ++ more) = .ok p := by
  have hparse : Program.parse {} "(a \"b\\"
      = .error (.scan (.unterminatedString ⟨1, 4⟩)) := by
    with_unfolding_all rfl
  have hlexemes : Program.ofLexemes defaultDepth (Scanner.start false "(a \"b\\").drain.1.1
      = .error (.unexpectedEnd (some ⟨1, 1⟩)) := by
    with_unfolding_all rfl
  refine ⟨hparse, (exists_completion_iff hparse rfl).2 fun e he => ?_⟩
  cases hlexemes.symm.trans he
  rfl

/-- Quoted text is left open, so the text counts as incomplete; but a parenthesis in front of it has
nothing to close, and no text behind it completes it. -/
theorem no_completion_behind_closing :
    Program.parse {} ") \"" = .error (.scan (.unterminatedString ⟨1, 3⟩)) ∧
    (Error.scan (.unterminatedString ⟨1, 3⟩)).isIncomplete = true ∧
    ∀ more p, Program.parse {} (") \"" ++ more) ≠ .ok p := by
  refine ⟨by with_unfolding_all rfl, rfl, ?_⟩
  intro more p hparse
  have hscan : scanFrom false {} ") \"".toList
      = ([⟨.closing, some ⟨1, 1⟩⟩], some (.unterminatedString ⟨1, 3⟩)) := by
    with_unfolding_all rfl
  obtain ⟨t, ht⟩ := takeAll_of_completion hscan hparse
  cases ht

end Program

end Sexpr
