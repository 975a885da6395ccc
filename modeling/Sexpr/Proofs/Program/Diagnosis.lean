import Sexpr.Proofs.Form.Nesting
import Sexpr.Proofs.Program.Concatenation
import Sexpr.Proofs.Token.Place

/-!
# What errors point at

An error of parsing gives a place in the text, and says by its kind what is wrong there.
`Error.DueTo` states what that means, by the layout of the text alone: which character stands at the
place, and how many lists the tokens in front of it or behind it leave open.

* `Program.exists_dueTo_of_parse`: every error of parsing is due to the character it points at;
* `Program.location_of_parse_error`: **that character is there, in the line and the column that the
  error gives**;
* `Program.read_append_of_malformed`: **an error that no more text can mend stays as it is** when
  more text follows in a new line, unless quoted text is left open in there, which is found first.
-/

namespace Sexpr

/-- An error is due to a character of a text, behind what is laid out in front of it: what the error
says is so at that character. -/
inductive Error.DueTo (options : Options) (text : String) (front : Layout) :
    Char → Error → Prop where
  /-- A quote opens quoted text that is never closed. -/
  | openQuote (hquote : OpenQuote options.comments text front) :
    DueTo options text front '"' (.scan (.unterminatedString (.behind front.text)))
  /-- A list is opened and never closed, but all lists behind it are. -/
  | openList {back : Layout} (hx : TokenAt options.comments text front .opening back)
    (hback : Balanced back.tokens) :
    DueTo options text front '(' (.parse (.unexpectedEnd (some (.behind front.text))))
  /-- A parenthesis closes nothing: all lists in front of it have been closed already. -/
  | unmatched {back : Layout} (hx : TokenAt options.comments text front .closing back)
    (hfront : Balanced front.tokens) :
    DueTo options text front ')' (.parse (.unmatchedClose (some (.behind front.text))))
  /-- An atom spells an integer that is out of range; the error repeats it as it stands there. -/
  | outOfRange {back : Layout} {word : String} {c : Char} {cs : List Char} {z : Int}
    (hx : TokenAt options.comments text front (.atom word) back) (hhead : word.toList = c :: cs)
    (hz : Decimal.int? word.toList = some z) (hrange : Decimal.inRange z = false) :
    DueTo options text front c (.parse (.numberOutOfRange word (some (.behind front.text))))
  /-- A list is opened where as many are open as may be, and none in front of it is. -/
  | tooDeep {back : Layout} (hx : TokenAt options.comments text front .opening back)
    (hfull : openLists? 0 front.tokens = some options.parseDepth)
    (hfirst : ∀ ts, ts ++ [.opening] <+: front.tokens →
      openLists? 0 ts ≠ some options.parseDepth) :
    DueTo options text front '('
      (.parse (.recursionLimitExceeded options.parseDepth (some (.behind front.text))))

namespace Error.DueTo

variable {options : Options} {text : String} {front : Layout} {c : Char} {e : Error}

theorem location?_eq (h : DueTo options text front c e) :
    e.location? = some (Location.behind front.text) := by
  cases h <;> rfl

/-- The character stands in the text, and is no newline. -/
theorem exists_text_eq (h : DueTo options text front c e) :
    (∃ after, text.toList = front.text ++ c :: after) ∧ c ≠ '\n' := by
  cases h with
  | openQuote hquote =>
    obtain ⟨body, htext, -⟩ := hquote.unclosed
    exact ⟨⟨body, htext⟩, by decide⟩
  | openList hx _ | unmatched hx _ | tooDeep hx _ _ =>
    exact ⟨⟨_, hx.toList_eq⟩, by decide⟩
  | @outOfRange back word c cs z hx hhead hz _ =>
    refine ⟨⟨cs ++ back.text, ?_⟩, ?_⟩
    · rw [hx.toList_eq, Token.text_atom, hhead]
      rfl
    · rintro rfl
      have hinteger := Decimal.isInteger_of_int?_eq_some hz
      rw [hhead] at hinteger
      obtain ⟨sign, ds, heq, rfl | rfl, -, hdigits⟩ := Decimal.isInteger_iff.1 hinteger
      · have hmem : '\n' ∈ ds := by
          rw [← List.nil_append ds, ← heq]
          exact List.mem_cons_self
        exact absurd (hdigits _ hmem) (by decide)
      · cases heq

end Error.DueTo

namespace Program

variable {options : Options} {text : String} {e : Error}

/-- The lexeme that cannot be taken is what the error is due to. -/
theorem exists_dueTo_of_offends {us vs : List Lexeme} {x : Lexeme} {s : Stack} {e : ParseError}
    (hscan : lexemes options.comments text = .ok (us ++ x :: vs))
    (hus : Stack.takeAll options.parseDepth {} us = .ok s)
    (hoffends : s.Offends options.parseDepth x e) :
    ∃ front c, Error.DueTo options text front c (.parse e) := by
  obtain ⟨front, back, hx, hfront, -, hlocation⟩ := exists_tokenAt hscan
  have hcount := Stack.openLists?_of_takeAll hus
  have hfirst := @Stack.openLists?_ne_of_takeAll _ _ _ hus
  rw [← hfront] at hcount hfirst
  refine ⟨front, ?_⟩
  cases hoffends with
  | tooDeep htoken hfull =>
    rw [htoken] at hx
    rw [hfull] at hcount
    rw [hlocation]
    exact ⟨'(', .tooDeep hx hcount fun ts => hfirst⟩
  | unmatched htoken hnone =>
    rw [htoken] at hx
    rw [hnone] at hcount
    rw [hlocation]
    exact ⟨')', .unmatched hx hcount⟩
  | @outOfRange word z htoken hz hrange =>
    rw [htoken] at hx
    rw [hlocation]
    have hne : word.toList ≠ [] := by
      intro hnil
      rw [hnil] at hz
      cases hz
    obtain ⟨c, cs, hhead⟩ := List.exists_cons_of_ne_nil hne
    exact ⟨c, .outOfRange hx hhead hz hrange⟩

/-- The innermost list that is open at the end is what the error is due to. -/
theorem exists_dueTo_of_finish {xs : List Lexeme} {s : Stack} {e : ParseError}
    (hscan : lexemes options.comments text = .ok xs)
    (hxs : Stack.takeAll options.parseDepth {} xs = .ok s) (hs : s.finish = .error e) :
    ∃ front c, Error.DueTo options text front c (.parse e) := by
  obtain ⟨location, found, rest, hopened, rfl⟩ := Stack.finish_eq_error_iff.1 hs
  have hplaces := Stack.openedBy_takeAll hxs
  rw [Stack.places, hopened] at hplaces
  obtain ⟨us, x, vs, rfl, htoken, hplace, hvs, -⟩ := hplaces
  obtain ⟨front, back, hx, -, hback, hlocation⟩ := exists_tokenAt hscan
  obtain rfl : location = some (.behind front.text) := hplace.symm.trans hlocation
  rw [htoken] at hx
  rw [← hback] at hvs
  exact ⟨front, '(', .openList hx hvs⟩

/-- Parsing fails with an error of the scanner, or because a lexeme is refused, or because a list is
open at the end. -/
theorem cases_of_parse_error (h : Program.parse options text = .error e) :
    (∃ error, lexemes options.comments text = .error error ∧ e = .scan error) ∨
    (∃ xs error, lexemes options.comments text = .ok xs ∧
      Stack.takeAll options.parseDepth {} xs = .error error ∧ e = .parse error) ∨
    ∃ xs s error, lexemes options.comments text = .ok xs ∧
      Stack.takeAll options.parseDepth {} xs = .ok s ∧ s.finish = .error error ∧
      e = .parse error := by
  rw [parse_eq] at h
  cases hscan : lexemes options.comments text with
  | error error =>
    rw [hscan] at h
    cases h
    exact .inl ⟨error, rfl, rfl⟩
  | ok xs =>
    simp only [hscan, Program.ofLexemes_eq_run, Stack.run_eq] at h
    cases htaken : Stack.takeAll options.parseDepth {} xs with
    | error error =>
      rw [htaken] at h
      cases h
      exact .inr (.inl ⟨xs, error, rfl, htaken, rfl⟩)
    | ok s =>
      cases hs : s.finish with
      | ok p => simp [htaken, hs] at h
      | error error =>
        simp only [htaken, hs] at h
        cases h
        exact .inr (.inr ⟨xs, s, error, rfl, htaken, hs, rfl⟩)

/-- An error of parsing is due to a character of the text. -/
theorem exists_dueTo_of_parse (h : Program.parse options text = .error e) :
    ∃ front c, e.DueTo options text front c := by
  obtain ⟨error, hscan, rfl⟩ | ⟨xs, error, hscan, htaken, rfl⟩ |
    ⟨xs, s, error, hscan, htaken, hs, rfl⟩ := cases_of_parse_error h
  · obtain ⟨front, hquote, rfl⟩ := exists_openQuote hscan
    exact ⟨front, '"', .openQuote hquote⟩
  · obtain ⟨us, x, vs, s, rfl, hus, hoffends⟩ := Stack.takeAll_eq_error_iff.1 htaken
    exact exists_dueTo_of_offends hscan hus hoffends
  · exact exists_dueTo_of_finish hscan htaken hs

/-- **An error of parsing points at the character that it is due to**: the place it gives is that of
a character of the text, by line and column, and what the error says is so at that character. -/
theorem location_of_parse_error (h : Program.parse options text = .error e) :
    ∃ front c after, text.toList = Layout.text front ++ c :: after ∧
      e.location? = some (Location.behind front.text) ∧
      Location.char? text.toList (Location.behind front.text) = some c ∧
      e.DueTo options text front c := by
  obtain ⟨front, c, hdue⟩ := exists_dueTo_of_parse h
  obtain ⟨⟨after, htext⟩, hc⟩ := hdue.exists_text_eq
  refine ⟨front, c, after, htext, hdue.location?_eq, ?_, hdue⟩
  rw [htext]
  exact Location.char?_behind front.text after hc

/-- A comment and quoted text over two lines stand in front of a list that is nested too deeply. -/
theorem location_of_parse_error_tooDeep :
    Program.parse { comments := true, parseDepth := 1 } "é ; (\n\"x\ny\" (a (b"
      = .error (.parse (.recursionLimitExceeded 1 (some ⟨3, 7⟩))) ∧
    Location.char? "é ; (\n\"x\ny\" (a (b".toList ⟨3, 7⟩ = some '(' := by
  have hparse : Program.parse { comments := true, parseDepth := 1 } "é ; (\n\"x\ny\" (a (b"
      = .error (.parse (.recursionLimitExceeded 1 (some ⟨3, 7⟩))) := by
    with_unfolding_all rfl
  refine ⟨hparse, ?_⟩
  obtain ⟨front, c, after, -, hlocation, hchar, hdue⟩ := location_of_parse_error hparse
  have hplace : ⟨3, 7⟩ = Location.behind front.text := Option.some.inj hlocation
  rw [hplace] at hdue ⊢
  cases hdue with
  | tooDeep => exact hchar

/-! ## Errors that stay -/

/-- If no more text can mend an error, one of the lexemes found is refused. -/
theorem takeAll_of_malformed (h : Program.read options text = .error e)
    (he : e.isMalformed = true) : ∃ xs error, lexemes options.comments text = .ok xs ∧
      Stack.takeAll options.parseDepth {} xs = .error error ∧ e = .parse error := by
  rw [read_eq] at h
  cases hparse : Program.parse options text with
  | ok raw =>
    -- All lexemes were taken, so the error is one of applying the markers.
    simp only [hparse] at h
    split at h <;> cases h
    cases he
  | error error =>
    rw [hparse] at h
    cases h
    obtain ⟨error, -, rfl⟩ | hrefused | ⟨xs, s, error, -, -, hs, rfl⟩ := cases_of_parse_error hparse
    · cases error
      cases he
    · exact hrefused
    · -- At an early end the error is that of the end, which more text can mend.
      obtain ⟨location, found, rest, -, rfl⟩ := Stack.finish_eq_error_iff.1 hs
      cases he

/-- **An error that no more text can mend stays as it is** when a newline and more text follow, with
its place and all it says; or else quoted text is left open in what follows, and that is the
error. -/
theorem read_append_of_malformed (h : Program.read options text = .error e)
    (he : e.isMalformed = true) (more : String) :
    Program.read options (text ++ "\n" ++ more) = .error e ∨
    ∃ front, OpenQuote options.comments more front ∧
      Program.read options (text ++ "\n" ++ more) = .error (.scan (.unterminatedString
        (Location.behind (text.toList ++ '\n' :: front.text)))) := by
  obtain ⟨xs, error, hscan, htaken, rfl⟩ := takeAll_of_malformed h he
  have hwhole := lexemes_append_newline hscan more
  rw [read_eq, parse_eq]
  cases hmore : lexemes options.comments more with
  | ok ys =>
    left
    rw [hmore] at hwhole
    have hparse : Program.ofLexemes options.parseDepth (xs ++ ys.map (.down (lineCount text)))
        = .error error := by
      rw [Program.ofLexemes_eq_run, Stack.run_append, htaken]
    simp only [hwhole, hparse]
  | error unclosed =>
    right
    rw [hmore] at hwhole
    obtain ⟨front, hquote, rfl⟩ := exists_openQuote hmore
    refine ⟨front, hquote, ?_⟩
    simp only [hwhole, Location.behind_append_newline]
    rfl

/-- A list that is left open further down does not hide the parenthesis that closes nothing. -/
theorem read_append_of_malformed_closing :
    Program.read { comments := true } "(a)) ; and" =
      .error (.parse (.unmatchedClose (some ⟨1, 4⟩))) ∧
    Program.read { comments := true } ("(a)) ; and" ++ "\n" ++ "(b") =
      .error (.parse (.unmatchedClose (some ⟨1, 4⟩))) := by
  have hparse : Program.parse { comments := true } "(a)) ; and" =
      .error (.parse (.unmatchedClose (some ⟨1, 4⟩))) := by
    with_unfolding_all rfl
  have hread : Program.read { comments := true } "(a)) ; and" =
      .error (.parse (.unmatchedClose (some ⟨1, 4⟩))) := by
    rw [read_eq, hparse]
  refine ⟨hread, ?_⟩
  rcases read_append_of_malformed hread rfl "(b" with hsame | ⟨front, hquote, -⟩
  · exact hsame
  · obtain ⟨body, htext, -⟩ := hquote.unclosed
    have hmem : '"' ∈ "(b".toList := by
      rw [htext]
      exact List.mem_append_right _ List.mem_cons_self
    exact absurd hmem (by decide)

end Program

end Sexpr
