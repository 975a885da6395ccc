import Sexpr.Token.Scanner

/-!
# What gaps and tokens are made of

A gap is a run of blanks and, if they are recognised, comments. A token is a parenthesis, a marker,
a complete string literal, or a word, which is a run of characters none of which stops a word. These
are stated here on their own, without the scanner, and then tied to it:

* `splitGap_append_eq` / `gap_splitGap`: the scanner splits off exactly the gap in front;
* `scan_text_append` / `wellFormed_of_scan`: the token found at the front of a text is a well-formed
  one that nothing behind it goes on.
-/

namespace Sexpr

/-! ## Gaps -/

/-- Blanks and complete comments, in any order. -/
inductive Gap (comments : Bool) : List Char → Prop where
  | nil : Gap comments []
  | blank {c : Char} {g : List Char} (hc : isBlank c = true) (hg : Gap comments g) :
    Gap comments (c :: g)
  | comment {line g : List Char} (hon : comments = true) (hline : '\n' ∉ line)
    (hg : Gap comments g) : Gap comments (';' :: (line ++ '\n' :: g))

/-- A gap at the end of a text, whose last comment may lack its newline. -/
inductive FinalGap (comments : Bool) : List Char → Prop where
  | closed {g : List Char} (hg : Gap comments g) : FinalGap comments g
  | unclosed {g line : List Char} (hon : comments = true) (hg : Gap comments g)
    (hline : '\n' ∉ line) : FinalGap comments (g ++ ';' :: line)

/-- A character that a gap can start with. -/
def startsGap (comments : Bool) (c : Char) : Bool := isBlank c || (comments && c == ';')

section

variable {comments : Bool} {g h : List Char}

theorem Gap.append (hg : Gap comments g) (hh : Gap comments h) : Gap comments (g ++ h) := by
  induction hg with
  | nil => exact hh
  | blank hc _ ih => exact .blank hc ih
  | comment hon hline _ ih =>
    rw [List.cons_append, List.append_assoc]
    exact .comment hon hline ih

theorem Gap.startsGap_head (hg : Gap comments g) {c : Char} {cs : List Char} (h : g = c :: cs) :
    startsGap comments c = true := by
  cases hg with
  | nil => cases h
  | blank hc _ => cases h; simp [startsGap, hc]
  | comment hon _ _ => cases h; simp [startsGap, hon]

theorem FinalGap.startsGap_head (hg : FinalGap comments g) {c : Char} {cs : List Char}
    (h : g = c :: cs) : startsGap comments c = true := by
  cases hg with
  | closed hg => exact hg.startsGap_head h
  | @unclosed g line hon hg _ =>
    cases g with
    | nil => cases h; simp [startsGap, hon]
    | cons d g => cases h; exact hg.startsGap_head rfl

/-- Inside a comment everything through the next newline is passed. -/
theorem splitGap_go_comment {line : List Char} (hline : '\n' ∉ line) (taken rest : List Char) :
    Token.splitGap.go comments true taken (line ++ '\n' :: rest)
      = Token.splitGap.go comments false ('\n' :: (line.reverse ++ taken)) rest := by
  induction line generalizing taken with
  | nil => simp [Token.splitGap.go]
  | cons c line ih =>
    simp only [List.mem_cons, not_or] at hline
    have hc : (c != '\n') = true := by simpa using Ne.symm hline.1
    rw [List.cons_append, Token.splitGap.go, if_pos rfl, hc, ih hline.2]
    simp

theorem splitGap_go_unclosed {line : List Char} (hline : '\n' ∉ line) (taken : List Char) :
    Token.splitGap.go comments true taken line = (taken.reverse ++ line, []) := by
  induction line generalizing taken with
  | nil => simp [Token.splitGap.go]
  | cons c line ih =>
    simp only [List.mem_cons, not_or] at hline
    have hc : (c != '\n') = true := by simpa using Ne.symm hline.1
    rw [Token.splitGap.go, if_pos rfl, hc, ih hline.2]
    simp

/-- A comment is passed as a whole, if comments are recognised. -/
theorem splitGap_go_semicolon (hon : comments = true) (taken rest : List Char) :
    Token.splitGap.go comments false taken (';' :: rest)
      = Token.splitGap.go comments true (';' :: taken) rest := by
  subst hon
  rw [Token.splitGap.go]
  simp [show isBlank ';' = false by decide]

theorem splitGap_go_gap (hg : Gap comments g) (taken rest : List Char) :
    Token.splitGap.go comments false taken (g ++ rest)
      = Token.splitGap.go comments false (g.reverse ++ taken) rest := by
  induction hg generalizing taken with
  | nil => rfl
  | blank hc _ ih =>
    rw [List.cons_append, Token.splitGap.go]
    simp [hc, ih]
  | comment hon hline _ ih =>
    rw [List.cons_append, List.append_assoc, List.cons_append, splitGap_go_semicolon hon,
      splitGap_go_comment hline, ih]
    simp

theorem splitGap_go_stop {c : Char} (hc : startsGap comments c = false) (taken cs : List Char) :
    Token.splitGap.go comments false taken (c :: cs) = (taken.reverse, c :: cs) := by
  simp only [startsGap, Bool.or_eq_false_iff] at hc
  simp [Token.splitGap.go, hc.1, hc.2]

/-- A gap is split off as a whole from a text that goes on with a character of a token. -/
theorem splitGap_append_eq (hg : Gap comments g) {c : Char} (hc : startsGap comments c = false)
    (cs : List Char) : Token.splitGap comments (g ++ c :: cs) = (g, c :: cs) := by
  rw [Token.splitGap, splitGap_go_gap hg, splitGap_go_stop hc]
  simp

theorem splitGap_final (hg : FinalGap comments g) : Token.splitGap comments g = (g, []) := by
  cases hg with
  | closed hg =>
    rw [Token.splitGap, ← List.append_nil g, splitGap_go_gap hg]
    simp [Token.splitGap.go]
  | unclosed hon hg hline =>
    rw [Token.splitGap, splitGap_go_gap hg, splitGap_go_semicolon hon, splitGap_go_unclosed hline]
    simp

/-- What has been taken, as the loop goes: a gap, or a gap and the beginning of a comment. -/
def GapSoFar (comments inComment : Bool) (taken : List Char) : Prop :=
  if inComment then
    comments = true ∧ ∃ g line, Gap comments g ∧ '\n' ∉ line ∧ taken.reverse = g ++ ';' :: line
  else Gap comments taken.reverse

theorem GapSoFar.final {inComment : Bool} {taken : List Char}
    (h : GapSoFar comments inComment taken) : FinalGap comments taken.reverse := by
  cases inComment with
  | false => exact .closed h
  | true =>
    obtain ⟨hon, g, line, hg, hline, heq⟩ := h
    rw [heq]
    exact .unclosed hon hg hline

/-- One more character of a comment; a newline completes it. -/
theorem GapSoFar.comment {taken : List Char} (h : GapSoFar comments true taken) (c : Char) :
    GapSoFar comments (c != '\n') (c :: taken) := by
  obtain ⟨hon, g, line, hg, hline, heq⟩ := h
  by_cases hc : c = '\n'
  · subst hc
    show Gap comments ('\n' :: taken).reverse
    rw [List.reverse_cons, heq, List.append_assoc]
    exact hg.append (.comment hon hline .nil)
  · have hne : (c != '\n') = true := by simpa using hc
    rw [hne]
    refine ⟨hon, g, line ++ [c], hg, ?_, ?_⟩
    · simp [hline, Ne.symm hc]
    · simp [heq]

/-- What the loop splits off is a gap, and what is left does not start with one. -/
theorem gapSoFar_splitGap_go {inComment : Bool} {taken cs : List Char}
    (h : GapSoFar comments inComment taken) :
    FinalGap comments (Token.splitGap.go comments inComment taken cs).1 ∧
      ∀ c rest, (Token.splitGap.go comments inComment taken cs).2 = c :: rest →
        Gap comments (Token.splitGap.go comments inComment taken cs).1 ∧
          startsGap comments c = false := by
  fun_induction Token.splitGap.go comments inComment taken cs with
  | case1 inComment taken =>
    refine ⟨h.final, ?_⟩
    intro c rest heq
    cases heq
  | case2 taken c cs ih => exact ih (h.comment c)
  | case3 inComment taken c cs hin hc ih =>
    simp only [Bool.not_eq_true] at hin
    subst hin
    refine ih ?_
    show Gap comments (c :: taken).reverse
    rw [List.reverse_cons]
    exact Gap.append h (.blank hc .nil)
  | case4 inComment taken c cs hin hblank hc ih =>
    simp only [Bool.not_eq_true] at hin
    simp only [Bool.and_eq_true, beq_iff_eq] at hc
    obtain ⟨hon, rfl⟩ := hc
    subst hin
    exact ih ⟨hon, taken.reverse, [], h, List.not_mem_nil, by simp⟩
  | case5 inComment taken c cs hin hblank hc =>
    simp only [Bool.not_eq_true] at hin hblank hc
    subst hin
    refine ⟨h.final, ?_⟩
    intro d rest heq
    obtain ⟨rfl, -⟩ := List.cons.inj heq
    exact ⟨h, by simp [startsGap, hblank, hc]⟩

/-- What is split off in front is a gap; if it reaches the end, its last comment may be open. -/
theorem finalGap_splitGap (cs : List Char) : FinalGap comments (Token.splitGap comments cs).1 :=
  (gapSoFar_splitGap_go (show GapSoFar comments false [] from .nil)).1

theorem gap_splitGap {cs rest : List Char} {c : Char}
    (h : (Token.splitGap comments cs).2 = c :: rest) :
    Gap comments (Token.splitGap comments cs).1 ∧ startsGap comments c = false :=
  (gapSoFar_splitGap_go (show GapSoFar comments false [] from .nil)).2 c rest h

end

/-! ## Words and string literals -/

namespace Token

/-- A character that no word holds: a blank, a parenthesis, a double quote, the first character of a
marker other than `#'`, and with comments a `;`. -/
def stopsWord (comments : Bool) (c : Char) : Bool :=
  isBlank c || ['(', ')', '"', '\'', '\x60', ','].contains c || (comments && c == ';')

/-- A nonempty run of characters that do not stop a word. -/
def IsWord (comments : Bool) (cs : List Char) : Prop :=
  cs ≠ [] ∧ ∀ c ∈ cs, stopsWord comments c = false

instance (comments : Bool) (cs : List Char) : Decidable (IsWord comments cs) :=
  decidable_of_iff ((!cs.isEmpty && cs.all fun c => !stopsWord comments c) = true)
    (by simp [IsWord])

/-- What may stand between two quotes: every quote is escaped, and no escape is left open. -/
inductive LiteralBody : List Char → Prop where
  | nil : LiteralBody []
  | plain {c : Char} {cs : List Char} (hquote : c ≠ '"') (hslash : c ≠ '\\') (h : LiteralBody cs) :
    LiteralBody (c :: cs)
  | escaped (c : Char) {cs : List Char} (h : LiteralBody cs) : LiteralBody ('\\' :: c :: cs)

/-- A complete string literal: a quote, a body and the closing quote. -/
def IsLiteral (cs : List Char) : Prop := ∃ body, LiteralBody body ∧ cs = '"' :: (body ++ ['"'])

section

variable {comments : Bool}

theorem isSome_marker_split? (c : Char) (cs : List Char) : (Marker.split? (c :: cs)).isSome =
    (c == '\'' || c == '\x60' || c == ',' || (c == '#' && cs.head? == some '\'')) := by
  by_cases hhash : c = '#'
  · subst hhash
    cases cs with
    | nil => decide
    | cons d ds =>
      by_cases hd : d = '\''
      · subst hd; simp [Marker.split?]
      · simp [Marker.split?, hd]
  · by_cases hcomma : c = ','
    · subst hcomma
      unfold Marker.split?
      split <;> simp_all
    · unfold Marker.split?
      split <;> simp_all

/-- An atom ends at a character that stops a word, and in front of the marker `#'`. -/
theorem endsAtom_eq (c : Char) (cs : List Char) :
    endsAtom comments c cs = (stopsWord comments c || (c == '#' && cs.head? == some '\'')) := by
  unfold endsAtom stopsWord
  rw [isSome_marker_split?]
  simp only [List.contains_cons, List.contains_nil]
  grind

theorem endsAtom_of_startsGap {c : Char} (h : startsGap comments c = true) (cs : List Char) :
    endsAtom comments c cs = true := by
  rw [endsAtom_eq]
  simp only [startsGap, Bool.or_eq_true] at h
  rcases h with h | h <;> simp [stopsWord, h]

/-- No atom ends inside a word: a `#` there is followed by a character of the word, not a quote. -/
theorem endsAtom_word {c : Char} {w rest : List Char}
    (hw : ∀ d ∈ c :: w, stopsWord comments d = false)
    (hhash : (c :: w).getLast? = some '#' → rest.head? ≠ some '\'') :
    endsAtom comments c (w ++ rest) = false := by
  rw [endsAtom_eq, hw c (by simp), Bool.false_or, Bool.and_eq_false_iff]
  by_cases h : c = '#'
  · right
    cases w with
    | nil => simpa [h] using hhash
    | cons d w =>
      have hd := hw d (by simp)
      have hne : d ≠ '\'' := by rintro rfl; simp [stopsWord] at hd
      simpa using hne
  · left; simpa using h

/-- A word that nothing goes on is split off as a whole. -/
theorem splitRun_go_word {w rest : List Char} (hw : ∀ c ∈ w, stopsWord comments c = false)
    (hrest : ∀ c cs, rest = c :: cs → endsAtom comments c cs = true)
    (hhash : w.getLast? = some '#' → rest.head? ≠ some '\'') (taken : List Char) :
    splitRun.go comments taken (w ++ rest) = (taken.reverse ++ w, rest) := by
  induction w generalizing taken with
  | nil =>
    cases rest with
    | nil => simp [splitRun.go]
    | cons c cs => simp [splitRun.go, hrest c cs rfl]
  | cons c w ih =>
    have hlast : w.getLast? = some '#' → rest.head? ≠ some '\'' := by
      intro h
      exact hhash (by cases w <;> simp_all)
    rw [List.cons_append, splitRun.go, if_neg (by simp [endsAtom_word hw hhash]),
      ih (fun d hd => hw d (by simp [hd])) hlast]
    simp

/-- The run that is split off holds no character that stops a word, and ends where an atom does. -/
theorem splitRun_go_spec (comments : Bool) (taken cs : List Char) :
    ∃ run rest, splitRun.go comments taken cs = (taken.reverse ++ run, rest) ∧
      (∀ c ∈ run, stopsWord comments c = false) ∧
      (∀ c ds, rest = c :: ds → endsAtom comments c ds = true) ∧
      (run.getLast? = some '#' → rest.head? ≠ some '\'') := by
  induction cs generalizing taken with
  | nil => exact ⟨[], [], by simp [splitRun.go], by simp, nofun, by simp⟩
  | cons c cs ih =>
    by_cases hend : endsAtom comments c cs = true
    · refine ⟨[], c :: cs, by simp [splitRun.go, hend], by simp, ?_, by simp⟩
      rintro d ds h
      cases h
      exact hend
    · obtain ⟨run, rest, heq, hrun, hrest, hhash⟩ := ih (c :: taken)
      have happ := splitRun_go_append comments (c :: taken) cs
      rw [heq] at happ
      simp only [endsAtom_eq, Bool.or_eq_true, not_or, Bool.not_eq_true] at hend
      refine ⟨c :: run, rest, by simp [splitRun.go, endsAtom_eq, hend, heq], ?_, hrest, ?_⟩
      · intro d hd
        rcases List.mem_cons.1 hd with rfl | hd
        · exact hend.1
        · exact hrun d hd
      · intro hlast
        cases run with
        | nil =>
          have hc : c = '#' := by simpa using hlast
          have hrest : rest = cs := by simpa using happ
          simpa [hc, hrest] using hend.2
        | cons d run => exact hhash (by simpa using hlast)

theorem LiteralBody.append {a b : List Char} (ha : LiteralBody a) (hb : LiteralBody b) :
    LiteralBody (a ++ b) := by
  induction ha with
  | nil => exact hb
  | plain hquote hslash _ ih => exact .plain hquote hslash ih
  | escaped c _ ih => exact .escaped c ih

/-- A body is split off together with the quote that closes it. -/
theorem splitQuoted?_go_body {body : List Char} (h : LiteralBody body) (taken rest : List Char) :
    splitQuoted?.go false taken (body ++ '"' :: rest)
      = some (taken.reverse ++ body ++ ['"'], rest) := by
  induction h generalizing taken with
  | nil => simp [splitQuoted?.go]
  | @plain c cs hquote hslash _ ih =>
    have hc : (c == '\\') = false := by simpa using hslash
    simp [splitQuoted?.go, hquote, hc, ih]
  | escaped c _ ih => simp [splitQuoted?.go, ih]

/-- What has been taken of a string literal, as the loop goes: a body, and perhaps a backslash. -/
def BodySoFar (escaped : Bool) (taken : List Char) : Prop :=
  if escaped then ∃ before, taken = '\\' :: before ∧ LiteralBody before.reverse
  else LiteralBody taken.reverse

theorem BodySoFar.plain {taken : List Char} (h : BodySoFar false taken) {c : Char} (hc : c ≠ '"') :
    BodySoFar (c == '\\') (c :: taken) := by
  by_cases hslash : c = '\\'
  · subst hslash
    exact ⟨taken, rfl, h⟩
  · have hne : (c == '\\') = false := by simpa using hslash
    rw [hne]
    show LiteralBody (c :: taken).reverse
    rw [List.reverse_cons]
    exact LiteralBody.append h (.plain hc hslash .nil)

theorem BodySoFar.escaped {taken : List Char} (h : BodySoFar true taken) (c : Char) :
    BodySoFar false (c :: taken) := by
  obtain ⟨before, rfl, hbefore⟩ := h
  show LiteralBody (c :: '\\' :: before).reverse
  rw [List.reverse_cons, List.reverse_cons, List.append_assoc]
  exact hbefore.append (.escaped c .nil)

theorem literalBody_of_splitQuoted?_go {escaped : Bool} {taken cs found rest : List Char}
    (hb : BodySoFar escaped taken) (h : splitQuoted?.go escaped taken cs = some (found, rest)) :
    ∃ body, LiteralBody body ∧ found = body ++ ['"'] := by
  fun_induction splitQuoted?.go escaped taken cs with
  | case1 => cases h
  | case2 taken c cs ih => exact ih (hb.escaped c) h
  | case3 escaped taken c cs hesc hc =>
    simp only [Bool.not_eq_true] at hesc
    simp only [beq_iff_eq] at hc
    subst hesc hc
    cases h
    exact ⟨taken.reverse, hb, by simp⟩
  | case4 escaped taken c cs hesc hc ih =>
    simp only [Bool.not_eq_true] at hesc
    subst hesc
    exact ih (hb.plain (by simpa using hc)) h

/-- What is split off behind a quote is a body and the quote that closes it. -/
theorem literalBody_of_splitQuoted? {cs found rest : List Char}
    (h : splitQuoted? cs = some (found, rest)) : ∃ body, LiteralBody body ∧ found = body ++ ['"'] :=
  literalBody_of_splitQuoted?_go (show BodySoFar false [] from .nil) h

end

/-! ## Tokens -/

/-- A token as the scanner finds it: an atom is a string literal or a word. -/
def WellFormed (comments : Bool) : Token → Prop
  | .atom text => IsLiteral text.toList ∨ IsWord comments text.toList
  | _ => True

/-- An atom that is a word. -/
def IsBare (comments : Bool) : Token → Prop
  | .atom text => IsWord comments text.toList
  | _ => False

/-- Two tokens that read differently when nothing stands between them: words run together, a comma
takes an `@` behind it, and a `#` goes with a quote. -/
def NeedsGap (comments : Bool) (t u : Token) : Prop :=
  (t.IsBare comments ∧ u.IsBare comments) ∨
    (t = .marker .unquote ∧ ∃ text, u = .atom text ∧ text.toList.head? = some '@') ∨
    (t.IsBare comments ∧ t.text.toList.getLast? = some '#' ∧ u = .marker .quote)

/-- Nothing in front of `rest` goes on a token that ends there. -/
structure EndsBefore (comments : Bool) (t : Token) (rest : List Char) : Prop where
  comma : t = .marker .unquote → rest.head? ≠ some '@'
  word : t.IsBare comments → ∀ c cs, rest = c :: cs → endsAtom comments c cs = true
  hash : t.IsBare comments → t.text.toList.getLast? = some '#' → rest.head? ≠ some '\''

theorem toList_text_marker (m : Marker) : (marker m).text.toList =
    match m with
    | .quote => ['\'']
    | .quasiquote => ['\x60']
    | .unquote => [',']
    | .unquoteSplicing => [',', '@']
    | .function => ['#', '\''] := by
  cases m <;> decide

@[simp] theorem toList_text_opening : opening.text.toList = ['('] := by decide

@[simp] theorem toList_text_closing : closing.text.toList = [')'] := by decide

@[simp] theorem text_atom (s : String) : (atom s).text = s := rfl

section

variable {comments : Bool} {t u : Token} {rest : List Char}

theorem startsGap_eq_false_of_stopsWord {c : Char} (h : stopsWord comments c = false) :
    startsGap comments c = false := by
  simp only [stopsWord, Bool.or_eq_false_iff] at h
  simp [startsGap, h.1.1, h.2]

/-- A token starts with a character that no gap starts with. -/
theorem WellFormed.exists_head (h : t.WellFormed comments) :
    ∃ c cs, t.text.toList = c :: cs ∧ startsGap comments c = false := by
  cases t with
  | opening => exact ⟨'(', [], rfl, by cases comments <;> decide⟩
  | closing => exact ⟨')', [], rfl, by cases comments <;> decide⟩
  | marker m => cases m <;> exact ⟨_, _, rfl, by cases comments <;> decide⟩
  | atom text =>
    rcases h with ⟨body, -, heq⟩ | ⟨hne, hw⟩
    · exact ⟨'"', body ++ ['"'], heq, by cases comments <;> decide⟩
    · obtain ⟨c, cs, heq⟩ := List.exists_cons_of_ne_nil hne
      exact ⟨c, cs, heq, startsGap_eq_false_of_stopsWord (hw c (by simp [heq]))⟩

theorem endsBefore_nil : EndsBefore comments t [] := ⟨by simp, nofun, by simp⟩

/-- A token ends in front of a gap. -/
theorem endsBefore_of_startsGap {c : Char} (h : startsGap comments c = true) (cs : List Char) :
    EndsBefore comments t (c :: cs) := by
  refine ⟨?_, ?_, ?_⟩
  · rintro - heq
    obtain rfl : c = '@' := by simpa using heq
    cases comments <;> exact absurd h (by decide)
  · rintro - d ds heq
    cases heq
    exact endsAtom_of_startsGap h cs
  · rintro - - heq
    obtain rfl : c = '\'' := by simpa using heq
    cases comments <;> exact absurd h (by decide)

/-- A word ends in front of any token that is no word. -/
theorem endsAtom_of_not_isBare (hu : u.WellFormed comments) (hb : ¬ u.IsBare comments) {c : Char}
    {cs : List Char} (h : u.text.toList ++ rest = c :: cs) : endsAtom comments c cs = true := by
  rw [endsAtom_eq]
  cases u with
  | opening =>
    rw [toList_text_opening] at h
    cases h
    simp [stopsWord]
  | closing =>
    rw [toList_text_closing] at h
    cases h
    simp [stopsWord]
  | marker m =>
    rw [toList_text_marker] at h
    cases m <;> cases h <;> simp [stopsWord]
  | atom name =>
    rcases hu with ⟨body, -, heq⟩ | hw
    · rw [text_atom, heq] at h
      cases h
      simp [stopsWord]
    · exact absurd hw hb

/-- With nothing between them, a token ends in front of another one exactly if they need no gap. -/
theorem endsBefore_token_iff (hu : u.WellFormed comments) (hrest : EndsBefore comments u rest) :
    EndsBefore comments t (u.text.toList ++ rest) ↔ ¬ NeedsGap comments t u := by
  constructor
  · rintro ⟨hcomma, hword, hhash⟩ (⟨ht, hub⟩ | ⟨rfl, name, rfl, hat⟩ | ⟨ht, hlast, rfl⟩)
    · cases u with
      | opening | closing | marker m => exact hub
      | atom name =>
        obtain ⟨hne, hw⟩ := hub
        obtain ⟨c, cs, heq⟩ := List.exists_cons_of_ne_nil hne
        have hend := hword ht c (cs ++ rest) (by simp [heq])
        rw [endsAtom_eq, hw c (by simp [heq]), Bool.false_or, Bool.and_eq_true, beq_iff_eq,
          beq_iff_eq] at hend
        -- The second word would have to be a `#` in front of a quote, and would be no word then.
        obtain ⟨rfl, hquote⟩ := hend
        cases cs with
        | nil => exact hrest.hash ⟨hne, hw⟩ (by simp [heq]) (by simpa using hquote)
        | cons d cs =>
          have hd := hw d (by simp [heq])
          obtain rfl : d = '\'' := by simpa using hquote
          simp [stopsWord] at hd
    · exact hcomma rfl (by simp [hat])
    · exact hhash ht hlast rfl
  · intro hno
    obtain ⟨c, cs, heq, -⟩ := hu.exists_head
    refine ⟨?_, ?_, ?_⟩
    · rintro rfl hat
      refine hno (.inr (.inl ⟨rfl, ?_⟩))
      cases u with
      | opening | closing => simp at hat
      | marker m => cases m <;> simp [toList_text_marker] at hat
      | atom name => exact ⟨name, rfl, by simpa [show name.toList = _ from heq] using hat⟩
    · intro ht d ds h
      exact endsAtom_of_not_isBare hu (fun hub => hno (.inl ⟨ht, hub⟩)) h
    · intro ht hlast hquote
      refine hno (.inr (.inr ⟨ht, hlast, ?_⟩))
      cases u with
      | opening | closing => simp at hquote
      | marker m => cases m <;> simp [toList_text_marker] at hquote ⊢
      | atom name =>
        rcases hu with ⟨body, -, hlit⟩ | hw
        · simp [hlit] at hquote
        · exact absurd (.inl ⟨ht, hw⟩) hno

/-! ## The token at the front of a text -/

theorem eq_nil_of_scan_finished {cs : List Char} (h : scan comments cs = .finished) : cs = [] := by
  cases cs with
  | nil => rfl
  | cons c cs =>
    rw [scan] at h
    repeat' split at h
    all_goals cases h

/-- A well-formed token that nothing goes on is the one the scanner finds. -/
theorem scan_text_append (ht : t.WellFormed comments) (hrest : EndsBefore comments t rest) :
    scan comments (t.text.toList ++ rest) = .found t rest := by
  cases t with
  | opening => simp [scan, Marker.split?]
  | closing => simp [scan, Marker.split?]
  | marker m =>
    cases m with
    | unquote =>
      have hcomma := hrest.comma rfl
      rw [toList_text_marker]
      cases rest with
      | nil => rfl
      | cons c cs =>
        have hc : c ≠ '@' := by simpa using hcomma
        simp [scan, Marker.split?, hc]
    | quote | quasiquote | unquoteSplicing | function =>
      simp [scan, Marker.split?, toList_text_marker]
  | atom name =>
    rcases ht with ⟨body, hbody, hlit⟩ | hw
    · have hsplit : splitQuoted? (body ++ '"' :: rest) = some (body ++ ['"'], rest) :=
        splitQuoted?_go_body hbody [] rest
      have hname : String.ofList ('"' :: (body ++ ['"'])) = name := by
        rw [← hlit, String.ofList_toList]
      simp [hlit, scan, Marker.split?, hsplit, hname]
    · obtain ⟨c, w, heq⟩ := List.exists_cons_of_ne_nil hw.1
      have hword : ∀ d ∈ c :: w, stopsWord comments d = false := heq ▸ hw.2
      have hhash : (c :: w).getLast? = some '#' → rest.head? ≠ some '\'' :=
        heq ▸ hrest.hash hw
      have hrun : splitRun comments (w ++ rest) = (w, rest) :=
        splitRun_go_word (fun d hd => hword d (by simp [hd])) (hrest.word hw)
          (fun h => hhash (by cases w <;> simp_all)) []
      have hname : String.ofList (c :: w) = name := by rw [← heq, String.ofList_toList]
      have hend := endsAtom_word hword hhash
      simp only [endsAtom, Bool.or_eq_false_iff, Option.isSome_eq_false_iff,
        Option.isNone_iff_eq_none] at hend
      obtain ⟨⟨⟨⟨⟨-, hopen⟩, hclose⟩, hquote⟩, -⟩, hmarker⟩ := hend
      simp [heq, scan, hmarker, hopen, hclose, hquote, hrun, hname]

/-- The word that starts with a character at which no atom ends. -/
theorem isBare_splitRun {c : Char} {cs : List Char} (hc : endsAtom comments c cs = false) :
    IsWord comments (c :: (splitRun comments cs).1) ∧
      EndsBefore comments (.atom (String.ofList (c :: (splitRun comments cs).1)))
        (splitRun comments cs).2 := by
  obtain ⟨run, behind, heq, hrun, hbehind, hhash⟩ := splitRun_go_spec comments [] cs
  have happ := splitRun_append comments cs
  rw [show splitRun comments cs = (run, behind) from heq] at happ ⊢
  rw [endsAtom_eq, Bool.or_eq_false_iff] at hc
  refine ⟨⟨by simp, ?_⟩, nofun, fun _ => hbehind, ?_⟩
  · intro d hd
    rcases List.mem_cons.1 hd with rfl | hd
    · exact hc.1
    · exact hrun d hd
  · rintro - hlast
    rw [text_atom, String.toList_ofList] at hlast
    cases run with
    | nil =>
      obtain rfl : c = '#' := by simpa using hlast
      obtain rfl : behind = cs := by simpa using happ
      simpa using hc.2
    | cons d run => exact hhash (by simpa using hlast)

theorem IsLiteral.not_isWord {cs : List Char} (h : IsLiteral cs) : ¬ IsWord comments cs := by
  rintro ⟨-, hw⟩
  obtain ⟨body, -, rfl⟩ := h
  have hquote := hw '"' (by simp)
  simp [stopsWord] at hquote

/-- No comma is found in front of an `@`. -/
theorem head?_ne_at_of_split?_unquote {cs : List Char}
    (h : Marker.split? cs = some (.unquote, rest)) : rest.head? ≠ some '@' := by
  intro hat
  have happ := Marker.append_of_split?_eq_some h
  obtain ⟨behind, rfl⟩ : ∃ ds, rest = '@' :: ds := by
    cases rest <;> simp_all
  rw [show Marker.unquote.text.toList = [','] from toList_text_marker .unquote] at happ
  cases happ
  cases h

/-- What the scanner finds is a well-formed token that nothing goes on. -/
theorem wellFormed_of_scan {c : Char} {cs : List Char} (hc : startsGap comments c = false)
    (h : scan comments (c :: cs) = .found t rest) :
    t.WellFormed comments ∧ EndsBefore comments t rest := by
  rcases scan_cases h with ⟨m, hm, rfl⟩ | ⟨-, rfl, rfl⟩ | ⟨-, rfl, rfl⟩ |
    ⟨rfl, found, hfound, rfl⟩ | ⟨hmarker, hopen, hclose, hquote, rfl, rfl⟩
  · refine ⟨trivial, ?_, nofun, nofun⟩
    rintro heq
    cases heq
    exact head?_ne_at_of_split?_unquote hm
  · exact ⟨trivial, nofun, nofun, nofun⟩
  · exact ⟨trivial, nofun, nofun, nofun⟩
  · obtain ⟨body, hbody, rfl⟩ := literalBody_of_splitQuoted? hfound
    have hlit : IsLiteral (String.ofList ('"' :: (body ++ ['"']))).toList :=
      ⟨body, hbody, String.toList_ofList⟩
    have hbare : ¬ IsBare comments (.atom (String.ofList ('"' :: (body ++ ['"'])))) :=
      hlit.not_isWord
    exact ⟨.inl hlit, nofun, fun hb => absurd hb hbare, fun hb => absurd hb hbare⟩
  · simp only [startsGap, Bool.or_eq_false_iff] at hc
    have hend : endsAtom comments c cs = false := by
      simp_all [endsAtom]
    obtain ⟨hw, hbefore⟩ := isBare_splitRun hend
    exact ⟨.inr (String.toList_ofList ▸ hw), hbefore⟩

end

end Token

end Sexpr
