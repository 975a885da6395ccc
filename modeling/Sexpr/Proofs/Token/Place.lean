import Mathlib.Data.List.DropRight
import Sexpr.Proofs.Token.Seam

/-!
# Where tokens stand

A location names a character by line and column. `Location.char?` looks the character up in the
lines of a text, and `Location.behind` gives the location of the character behind others without
walking through them; `Location.char?_behind` ties the two together. With that, what the scanner
says about places is compared with the text itself:

* `exists_tokenAt`: **each lexeme stands in the text where its location says**, with the tokens in
  front of it laid out in front of that place;
* `exists_openQuote`: **the only error of the scanner stands at an opening quote** with no
  closing one behind it.
-/

namespace Sexpr

/-! ## The character at a location -/

namespace Location

/-- The place of the character behind others: a line for every newline among them, and a column for
every character behind the last newline. -/
def behind (before : List Char) : Location where
  line := before.count '\n' + 1
  column := (before.rtakeWhile (· != '\n')).length + 1

/-- The character of a text at a location, by the lines that its newlines part. -/
def char? (cs : List Char) : Location → Option Char
  | ⟨line + 1, column + 1⟩ => (cs.splitOn '\n')[line]?.bind (·[column]?)
  | _ => none

theorem length_splitOn_newline (cs : List Char) :
    (cs.splitOn '\n').length = cs.count '\n' + 1 := by
  induction cs with
  | nil => rfl
  | cons c cs ih =>
    rw [List.splitOn_cons_eq_if_modifyHead]
    by_cases hc : c = '\n'
    · simp [hc, ih]
    · simp [hc, ih]

/-- A character in the first line is found there, behind the characters in front of it. -/
theorem head?_splitOn_newline {line : List Char} {c : Char} (hline : '\n' ∉ line) (hc : c ≠ '\n')
    (after : List Char) :
    ∃ rest, ((line ++ c :: after).splitOn '\n').head? = some (line ++ c :: rest) := by
  induction line with
  | nil =>
    obtain ⟨first, others, hafter⟩ :=
      List.exists_cons_of_ne_nil (List.splitOn_ne_nil '\n' after)
    exact ⟨first, by simp [List.splitOn_cons_eq_if_modifyHead, hc, hafter]⟩
  | cons d line ih =>
    simp only [List.mem_cons, not_or] at hline
    obtain ⟨rest, hrest⟩ := ih hline.2
    refine ⟨rest, ?_⟩
    rw [List.cons_append, List.splitOn_cons_eq_if_modifyHead]
    have hd : (d == '\n') = false := by simpa using Ne.symm hline.1
    simp [hd, List.head?_modifyHead, hrest]

/-- A text is its last line, or ends in a newline and its last line. -/
theorem eq_lastLine (cs : List Char) : cs = cs.rtakeWhile (· != '\n') ∨
    ∃ front, cs = front ++ '\n' :: cs.rtakeWhile (· != '\n') := by
  induction cs using List.reverseRecOn with
  | nil => exact .inl rfl
  | append_singleton cs c ih =>
    by_cases hc : c = '\n'
    · subst hc
      exact .inr ⟨cs, by rw [List.rtakeWhile_concat_neg _ _ _ (by simp)]⟩
    · rw [List.rtakeWhile_concat_pos _ _ _ (by simpa using hc)]
      rcases ih with heq | ⟨front, heq⟩
      · exact .inl (congrArg (· ++ [c]) heq)
      · exact .inr ⟨front, by conv_lhs => rw [heq]; simp⟩

theorem not_mem_lastLine (cs : List Char) : '\n' ∉ cs.rtakeWhile (· != '\n') := by
  intro h
  have := List.mem_rtakeWhile_imp h
  simp at this

/-- The place behind some characters names the character that stands behind them. -/
theorem char?_behind (before after : List Char) {c : Char} (hc : c ≠ '\n') :
    char? (before ++ c :: after) (behind before) = some c := by
  have hline := not_mem_lastLine before
  obtain ⟨rest, hhead⟩ := head?_splitOn_newline hline hc after
  have hindex : ((before ++ c :: after).splitOn '\n')[before.count '\n']?
      = some (before.rtakeWhile (· != '\n') ++ c :: rest) := by
    rcases eq_lastLine before with heq | ⟨front, heq⟩
    · rw [← heq] at hline hhead ⊢
      rw [List.count_eq_zero_of_not_mem hline, ← List.head?_eq_getElem?, hhead]
    · generalize before.rtakeWhile (· != '\n') = line at *
      subst heq
      have hcount : (front ++ '\n' :: line).count '\n' = (front.splitOn '\n').length := by
        rw [length_splitOn_newline, List.count_append, List.count_cons_self,
          List.count_eq_zero_of_not_mem hline, Nat.zero_add]
      rw [hcount, List.append_assoc, List.cons_append, List.splitOn_append_cons_self,
        List.getElem?_append_right (Nat.le_refl _), Nat.sub_self, ← List.head?_eq_getElem?, hhead]
  show ((before ++ c :: after).splitOn '\n')[before.count '\n']?.bind _ = _
  rw [hindex]
  simp

end Location

namespace Position

/-- A walk from the start of a text ends at the place behind the characters passed. -/
theorem toLocation_advance (cs : List Char) :
    (Position.advance {} cs).toLocation = Location.behind cs := by
  induction cs using List.reverseRecOn with
  | nil => rfl
  | append_singleton cs c ih =>
    have hline : (Position.advance {} cs).line = cs.count '\n' + 1 := congrArg Location.line ih
    have hcolumn : (Position.advance {} cs).column = (cs.rtakeWhile (· != '\n')).length + 1 :=
      congrArg Location.column ih
    rw [advance_append, advance_cons, advance_nil, step, Location.behind]
    by_cases hc : c = '\n'
    · subst hc
      rw [List.rtakeWhile_concat_neg _ _ _ (by simp)]
      simp [hline]
    · rw [List.rtakeWhile_concat_pos _ _ _ (by simpa using hc)]
      simp [hc, hline, hcolumn]

end Position

/-- Behind a text and a newline, places are as many lines further down as the text takes up. -/
theorem Location.behind_append_newline (first second : List Char) :
    behind (first ++ '\n' :: second) = (behind second).down (1 + first.count '\n') := by
  have hbelow : (Position.advance {} (first ++ ['\n'])).toLocation
      = down (1 + first.count '\n') ({} : Position).toLocation :=
    Position.toLocation_advance_newline {} first
  rw [List.append_cons, ← Position.toLocation_advance, Position.advance_append,
    Position.toLocation_advance_down hbelow, Position.toLocation_advance]

/-! ## Lexemes and their places -/

namespace Layout

variable {comments : Bool} {t : Token} {l front back : Layout}

/-- A layout, a token behind its last gap, and the layout behind that. -/
def splice (front : Layout) (t : Token) (back : Layout) : Layout :=
  ⟨front.items ++ (front.trailing, t) :: back.items, back.trailing⟩

theorem text_splice : (front.splice t back).text
    = front.text ++ (t.text.toList ++ back.text) := by
  simp [splice, text]

/-- Each of the lexemes is that of a token, at the place behind all that is in front of the
token. -/
theorem exists_splice_of_lexemesAt {p : Position} {us vs : List Lexeme} {x : Lexeme}
    (h : lexemesAt p l.items = us ++ x :: vs) :
    ∃ front back, l = splice front x.token back ∧ front.tokens = us.map Lexeme.token ∧
      back.tokens = vs.map Lexeme.token ∧ x.location = (p.advance front.text).toLocation := by
  induction l using Layout.induction generalizing p us with
  | nil trailing => simp [lexemesAt] at h
  | cons g t l ih =>
    cases us with
    | nil =>
      obtain ⟨rfl, hvs⟩ := List.cons.inj h
      exact ⟨⟨[], g⟩, l, rfl, rfl, by rw [← hvs, tokens_lexemesAt]; rfl, rfl⟩
    | cons u us =>
      obtain ⟨rfl, hrest⟩ := List.cons.inj h
      obtain ⟨front, back, rfl, hfront, hback, hlocation⟩ := ih hrest
      refine ⟨cons g t front, back, rfl, congrArg (t :: ·) hfront, hback, ?_⟩
      rw [hlocation, text_cons, Position.advance_append, Position.advance_append]

end Layout

/-- A token stands in a text between what is laid out in front of it and what is behind it. -/
structure TokenAt (comments : Bool) (text : String) (front : Layout) (t : Token) (back : Layout) :
    Prop where
  valid : (front.splice t back).Valid comments
  text_eq : (front.splice t back).text = text.toList

theorem TokenAt.toList_eq {comments : Bool} {text : String} {front back : Layout} {t : Token}
    (h : TokenAt comments text front t back) :
    text.toList = front.text ++ (t.text.toList ++ back.text) := by
  rw [← h.text_eq, Layout.text_splice]

/-- Each lexeme stands in the text where its location says, behind the lexemes in front of it. -/
theorem exists_tokenAt {comments : Bool} {text : String} {us vs : List Lexeme} {x : Lexeme}
    (h : lexemes comments text = .ok (us ++ x :: vs)) :
    ∃ front back, TokenAt comments text front x.token back ∧
      front.tokens = us.map Lexeme.token ∧ back.tokens = vs.map Lexeme.token ∧
      x.location = some (Location.behind front.text) := by
  obtain ⟨l, hl, -, htext⟩ := exists_layout_of_lexemes h
  have hlexemes : Layout.lexemesAt {} l.items = us ++ x :: vs := by
    rw [lexemes_eq, ← htext, Layout.scanFrom_text_eq hl] at h
    exact Except.ok.inj h
  obtain ⟨front, back, rfl, hfront, hback, hlocation⟩ := Layout.exists_splice_of_lexemesAt hlexemes
  refine ⟨front, back, ⟨hl, htext⟩, hfront, hback, ?_⟩
  rw [hlocation, Position.toLocation_advance]

/-! ## Quoted text that is never closed -/

namespace Token

/-- Where no closing quote is found, no literal is complete. -/
theorem ne_literal_of_splitQuoted? {body : List Char} (h : splitQuoted? body = none)
    {inner rest : List Char} (hinner : LiteralBody inner) : body ≠ inner ++ '"' :: rest := by
  rintro rfl
  have hsome := splitQuoted?_go_body hinner [] rest
  rw [show splitQuoted?.go false [] _ = splitQuoted? _ from rfl, h] at hsome
  cases hsome

end Token

/-- A quote stands in a text behind what is laid out in front of it, and opens quoted text that is
never closed. In front of it are whole tokens and whole gaps, so it stands neither in other quoted
text nor in a comment. -/
structure OpenQuote (comments : Bool) (text : String) (front : Layout) : Prop where
  valid : front.Valid comments
  gap : Gap comments front.trailing
  unclosed : ∃ body, text.toList = front.text ++ '"' :: body ∧
    ∀ inner rest, Token.LiteralBody inner → body ≠ inner ++ '"' :: rest

/-- A text has no lexemes only if quoted text in it is never closed. The error gives the place of
the opening quote. -/
theorem exists_openQuote {comments : Bool} {text : String} {e : ScanError}
    (h : lexemes comments text = .error e) :
    ∃ front, OpenQuote comments text front ∧
      e = .unterminatedString (Location.behind front.text) := by
  rw [lexemes_eq] at h
  split at h <;> cases h
  rename_i hscan
  obtain ⟨front, body, hfront, hgap, htext, hnone, -, he⟩ :=
    Layout.exists_of_scanFrom_error hscan
  refine ⟨front, ⟨hfront, hgap, body, htext, ?_⟩, ?_⟩
  · intro inner rest hinner
    exact Token.ne_literal_of_splitQuoted? hnone hinner
  · rw [he, Position.toLocation_advance]

end Sexpr
