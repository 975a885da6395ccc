import Sexpr.Proofs.Token.Layout

/-!
# One text behind another

What the scanner finds in a text depends on nothing that stands in front of it but the place where
it begins, and on what stands behind it only at its very end. A newline keeps two texts apart: it
completes a comment, and no token goes on across it.

* `scanFrom_down`: a text further down has the same lexemes, that much further down;
* `scanFrom_append_newline`: behind a text that scans well and a newline, the other text scans as it
  does on its own;
* `Layout.exists_of_scanFrom_error`: where quoted text is never closed, a layout of whole tokens and
  whole gaps stands in front of its quote;
* `exists_quote_of_scanFrom`: all that was found in front of it is found whatever is appended.
-/

namespace Sexpr

/-! ## Further down -/

/-- The same column, some lines further down. -/
def Location.down (n : Nat) (l : Location) : Location := { l with line := l.line + n }

/-- A lexeme found some lines further down. -/
def Lexeme.down (n : Nat) (x : Lexeme) : Lexeme := { x with location := x.location.map (.down n) }

/-- The same error some lines further down. -/
def ScanError.down (n : Nat) : ScanError → ScanError
  | .unterminatedString l => .unterminatedString (l.down n)

@[simp] theorem Lexeme.token_down (n : Nat) (x : Lexeme) : (x.down n).token = x.token := rfl

@[simp] theorem Lexeme.location_down (n : Nat) (x : Lexeme) :
    (x.down n).location = x.location.map (.down n) := rfl

namespace Position

theorem toLocation_step_down {p q : Position} {n : Nat} (h : q.toLocation = p.toLocation.down n)
    (c : Char) : (q.step c).toLocation = (p.step c).toLocation.down n := by
  have hline : q.line = p.line + n := by rw [h]; rfl
  have hcolumn : q.column = p.column := by rw [h]; rfl
  by_cases hc : c = '\n'
  · simp [step, hc, Location.down, hline, Nat.add_right_comm]
  · simp [step, hc, Location.down, hline, hcolumn]

/-- Two walks through the same characters stay the same number of lines apart. -/
theorem toLocation_advance_down {p q : Position} {n : Nat}
    (h : q.toLocation = p.toLocation.down n) (cs : List Char) :
    (q.advance cs).toLocation = (p.advance cs).toLocation.down n := by
  induction cs generalizing p q with
  | nil => exact h
  | cons c cs ih => exact ih (toLocation_step_down h c)

/-- Behind a text and a newline a line begins, further down by the newlines passed. -/
theorem toLocation_advance_newline (p : Position) (cs : List Char) :
    (p.advance (cs ++ ['\n'])).toLocation = ⟨p.line + (1 + cs.count '\n'), 1⟩ := by
  have hline := line_advance p cs
  rw [advance_append]
  simp only [advance_cons, advance_nil, step, if_true, hline]
  rw [Nat.add_comm 1, Nat.add_assoc]

end Position

theorem scanFrom_down {comments : Bool} {p q : Position} {n : Nat}
    (h : q.toLocation = p.toLocation.down n) (cs : List Char) :
    scanFrom comments q cs = ((scanFrom comments p cs).1.map (.down n),
      (scanFrom comments p cs).2.map (.down n)) := by
  fun_induction scanFrom comments p cs generalizing q with
  | case1 p cs hscan =>
    rw [scanFrom_finished hscan]
    rfl
  | case2 p cs t rest hscan ih =>
    have hfirst := Position.toLocation_advance_down h (Token.splitGap comments cs).1
    rw [scanFrom_found hscan, ih (Position.toLocation_advance_down hfirst t.text.toList), hfirst]
    rfl
  | case3 p cs hscan =>
    rw [scanFrom_unterminated hscan, Position.toLocation_advance_down h]
    rfl

/-! ## Gaps that go on -/

section

variable {comments : Bool} {g : List Char} {t : Token} {rest : List Char}

/-- A newline completes a gap, whether its last comment was open or not. -/
theorem FinalGap.newline (hg : FinalGap comments g) : Gap comments (g ++ ['\n']) := by
  cases hg with
  | closed hg => exact hg.append (.blank (by decide) .nil)
  | unclosed hon hg hline =>
    rw [List.append_assoc]
    exact hg.append (.comment hon hline .nil)

theorem splitGap_go_taken (inComment : Bool) (taken cs : List Char) :
    Token.splitGap.go comments inComment taken cs =
      (taken.reverse ++ (Token.splitGap.go comments inComment [] cs).1,
        (Token.splitGap.go comments inComment [] cs).2) := by
  induction cs generalizing inComment taken with
  | nil => simp [Token.splitGap.go]
  | cons c cs ih =>
    simp only [Token.splitGap.go]
    split_ifs with hin hblank hcomment
    · rw [ih _ (c :: taken), ih _ [c]]
      simp
    · rw [ih _ (c :: taken), ih _ [c]]
      simp
    · rw [ih _ (c :: taken), ih _ [c]]
      simp
    · simp

/-- A gap in front of a text becomes part of the gap it starts with. -/
theorem splitGap_gap_append (hg : Gap comments g) (cs : List Char) :
    Token.splitGap comments (g ++ cs) =
      (g ++ (Token.splitGap comments cs).1, (Token.splitGap comments cs).2) := by
  rw [Token.splitGap, splitGap_go_gap hg, splitGap_go_taken]
  simp [Token.splitGap]

/-- Behind a gap the scanner finds what it finds without it. -/
theorem scanFrom_gap_append (hg : Gap comments g) (p : Position) (cs : List Char) :
    scanFrom comments p (g ++ cs) = scanFrom comments (p.advance g) cs := by
  have hsplit := splitGap_gap_append hg cs
  have hscan : Token.scan comments (Token.splitGap comments (g ++ cs)).2
      = Token.scan comments (Token.splitGap comments cs).2 := by rw [hsplit]
  cases h : Token.scan comments (Token.splitGap comments cs).2 with
  | finished => rw [scanFrom_finished h, scanFrom_finished (hscan.trans h)]
  | found t rest =>
    rw [scanFrom_found h, scanFrom_found (hscan.trans h), hsplit, Position.advance_append]
  | unterminated =>
    rw [scanFrom_unterminated h, scanFrom_unterminated (hscan.trans h), hsplit,
      Position.advance_append]

/-- There is no gap in front of a quote. -/
theorem splitGap_quote (cs : List Char) : Token.splitGap comments ('"' :: cs) = ([], '"' :: cs) :=
  splitGap_append_eq .nil (by cases comments <;> decide) cs

/-! ## Tokens that nothing goes on -/

namespace Token

/-- What ends an atom still does when more text follows. -/
theorem endsAtom_append {c : Char} {cs : List Char} (h : endsAtom comments c cs = true)
    (ds : List Char) : endsAtom comments c (cs ++ ds) = true := by
  rw [endsAtom_eq, Bool.or_eq_true, Bool.and_eq_true] at h ⊢
  refine h.imp_right fun ⟨hhash, hquote⟩ => ⟨hhash, ?_⟩
  cases cs with
  | nil => simp at hquote
  | cons d cs => exact hquote

/-- A token that ends in front of a text ends there whatever follows the text; if there is no text,
it has to end in front of what follows. -/
theorem EndsBefore.append (h : EndsBefore comments t rest) {ds : List Char}
    (hnil : rest = [] → EndsBefore comments t ds) : EndsBefore comments t (rest ++ ds) := by
  cases rest with
  | nil => exact hnil rfl
  | cons c cs =>
    refine ⟨h.comma, ?_, h.hash⟩
    intro hbare d es heq
    cases heq
    exact endsAtom_append (h.word hbare c cs rfl) ds

/-- No token goes on across a quote. -/
theorem endsBefore_quote (cs : List Char) : EndsBefore comments t ('"' :: cs) := by
  refine ⟨by simp, ?_, by simp⟩
  intro _ c ds heq
  cases heq
  rw [endsAtom_eq]
  simp [stopsWord]

/-- A token that ends in front of a text and a quote behind it ends in front of the text alone. -/
theorem EndsBefore.of_append_quote {body : List Char}
    (h : EndsBefore comments t (rest ++ '"' :: body)) : EndsBefore comments t rest := by
  cases rest with
  | nil => exact endsBefore_nil
  | cons c cs =>
    refine ⟨h.comma, ?_, h.hash⟩
    intro hbare d ds heq
    cases heq
    have hend := h.word hbare c (cs ++ '"' :: body) rfl
    rw [endsAtom_eq] at hend ⊢
    cases cs with
    | nil => simpa using hend
    | cons d ds => exact hend

/-- Only an opening quote with no closing one behind it is unterminated. -/
theorem scan_eq_unterminated {cs : List Char} (h : scan comments cs = .unterminated) :
    ∃ body, cs = '"' :: body ∧ splitQuoted? body = none := by
  unfold scan at h
  split at h
  · cases h
  · rename_i c body
    split at h
    · cases h
    split_ifs at h with hopen hclose hquote
    split at h
    · cases h
    · rename_i hnone
      exact ⟨body, by simpa using hquote, hnone⟩

end Token

/-- A quote with no closing one behind it is all that the scanner finds there. -/
theorem scanFrom_unclosed {body : List Char} (h : Token.splitQuoted? body = none) (p : Position) :
    scanFrom comments p ('"' :: body) = ([], some (.unterminatedString p.toLocation)) := by
  have hscan : Token.scan comments (Token.splitGap comments ('"' :: body)).2 = .unterminated := by
    rw [splitGap_quote]
    simp [Token.scan, Marker.split?, h]
  rw [scanFrom_unterminated hscan, splitGap_quote]
  rfl

/-- The token that is found goes on to be found when more text follows, if nothing goes it on. -/
theorem scanFrom_append_found {cs : List Char}
    (h : Token.scan comments (Token.splitGap comments cs).2 = .found t rest) {ds : List Char}
    (hnil : rest = [] → Token.EndsBefore comments t ds) (p : Position) :
    scanFrom comments p (cs ++ ds) =
      (scanFrom comments ((p.advance (Token.splitGap comments cs).1).advance t.text.toList)
        (rest ++ ds)).map
          ({ token := t, location := (p.advance (Token.splitGap comments cs).1).toLocation } :: ·)
          id := by
  obtain ⟨hg, ht, hbefore⟩ := found_spec h
  obtain ⟨c, ws, hhead, hc⟩ := ht.exists_head
  have htext : cs ++ ds = (Token.splitGap comments cs).1 ++ c :: (ws ++ (rest ++ ds)) := by
    rw [← List.cons_append, ← hhead, ← List.append_assoc _ rest, Token.scan_append h,
      ← List.append_assoc, Token.splitGap_append]
  have hsplit : Token.splitGap comments (cs ++ ds)
      = ((Token.splitGap comments cs).1, t.text.toList ++ (rest ++ ds)) := by
    rw [htext, splitGap_append_eq hg hc, hhead]
    rfl
  have hscan : Token.scan comments (Token.splitGap comments (cs ++ ds)).2
      = .found t (rest ++ ds) := by
    rw [hsplit]
    exact Token.scan_text_append ht (hbefore.append hnil)
  rw [scanFrom_found hscan, hsplit]

end

/-! ## Texts in a row -/

section

variable {comments : Bool} {p : Position} {cs : List Char} {xs : List Lexeme}

/-- Behind a text that scans well and a newline, a text scans as it does on its own. -/
theorem scanFrom_append_newline (h : scanFrom comments p cs = (xs, none)) (ds : List Char) :
    scanFrom comments p (cs ++ '\n' :: ds) =
      (scanFrom comments (p.advance (cs ++ ['\n'])) ds).map (xs ++ ·) id := by
  fun_induction scanFrom comments p cs generalizing xs with
  | case1 p cs hscan =>
    cases h
    have hgap : FinalGap comments cs := by
      have happ := Token.splitGap_append comments cs
      rw [Token.eq_nil_of_scan_finished hscan, List.append_nil] at happ
      exact happ ▸ finalGap_splitGap cs
    rw [List.append_cons, scanFrom_gap_append hgap.newline]
    rfl
  | case2 p cs t rest hscan ih =>
    obtain ⟨hxs, hnone⟩ := Prod.mk.inj h
    have hseam : rest = [] → Token.EndsBefore comments t ('\n' :: ds) :=
      fun _ => Token.endsBefore_of_startsGap (by cases comments <;> decide) ds
    have htext : cs = (Token.splitGap comments cs).1 ++ (t.text.toList ++ rest) := by
      rw [Token.scan_append hscan, Token.splitGap_append]
    have hbehind : ((p.advance (Token.splitGap comments cs).1).advance t.text.toList).advance
        (rest ++ ['\n']) = p.advance (cs ++ ['\n']) := by
      conv_rhs => rw [htext]
      simp only [Position.advance_append]
    rw [scanFrom_append_found hscan hseam, ih (Prod.ext rfl hnone), hbehind, ← hxs]
    rfl
  | case3 p cs hscan => cases h

namespace Layout

variable {front : Layout}

/-- If the scanner fails, whole tokens and whole gaps are laid out in front of a quote that opens
text which is never closed. -/
theorem exists_of_scanFrom_error {e : ScanError} (h : scanFrom comments p cs = (xs, some e)) :
    ∃ (front : Layout) (body : List Char), front.Valid comments ∧ Gap comments front.trailing ∧
      cs = front.text ++ '"' :: body ∧ Token.splitQuoted? body = none ∧
      xs = lexemesAt p front.items ∧
      e = .unterminatedString (p.advance front.text).toLocation := by
  fun_induction scanFrom comments p cs generalizing xs with
  | case1 p cs hscan => cases h
  | case2 p cs t rest hscan ih =>
    obtain ⟨rfl, hsome⟩ := Prod.mk.inj h
    obtain ⟨front, body, hfront, hgap, rfl, hnone, hxs, rfl⟩ := ih (Prod.ext rfl hsome)
    obtain ⟨hg, ht, hbefore⟩ := found_spec hscan
    refine ⟨cons (Token.splitGap comments cs).1 t front, body, ?_, hgap, ?_, hnone, ?_, ?_⟩
    · exact valid_cons_iff.2 ⟨hg, ht, hbefore.of_append_quote, hfront⟩
    · rw [text_cons, List.append_assoc, List.append_assoc, Token.scan_append hscan,
        Token.splitGap_append]
    · exact congrArg (_ :: ·) hxs
    · rw [text_cons, Position.advance_append, Position.advance_append]
  | case3 p cs hscan =>
    cases h
    obtain ⟨body, heq, hnone⟩ := Token.scan_eq_unterminated hscan
    have hgap : Gap comments (Token.splitGap comments cs).1 := (gap_splitGap heq).1
    have happ := Token.splitGap_append comments cs
    rw [heq] at happ
    exact ⟨⟨[], (Token.splitGap comments cs).1⟩, body, ⟨by simp, by simp, .closed hgap, .nil⟩, hgap,
      happ.symm, hnone, rfl, rfl⟩

/-- In front of a quote a layout scans as it does on its own, if its last gap is complete. -/
theorem scanFrom_text_append_quote (hl : front.Valid comments)
    (hgap : Gap comments front.trailing) (p : Position) (rest : List Char) :
    scanFrom comments p (front.text ++ '"' :: rest) =
      (scanFrom comments (p.advance front.text) ('"' :: rest)).map
        (lexemesAt p front.items ++ ·) id := by
  induction front using Layout.induction generalizing p with
  | nil trailing => exact scanFrom_gap_append hgap p ('"' :: rest)
  | cons g t front ih =>
    have hseam : front.text = [] → Token.EndsBefore comments t ('"' :: rest) :=
      fun _ => Token.endsBefore_quote rest
    rw [scanFrom_append_found (scan_text hl) hseam, ih hl.tail hgap, splitGap_text hl, text_cons]
    simp only [Position.advance_append]
    rfl

end Layout

/-- If quoted text is never closed, it is found again as the beginning of what is left, behind the
same lexemes, whatever is appended to the text. -/
theorem exists_quote_of_scanFrom {e : ScanError} (h : scanFrom comments p cs = (xs, some e)) :
    ∃ before body, cs = before ++ '"' :: body ∧ Token.splitQuoted? body = none ∧
      ∀ ds, scanFrom comments p (cs ++ ds) =
        (scanFrom comments (p.advance before) ('"' :: (body ++ ds))).map (xs ++ ·) id := by
  obtain ⟨front, body, hfront, hgap, rfl, hnone, rfl, -⟩ := Layout.exists_of_scanFrom_error h
  refine ⟨front.text, body, rfl, hnone, ?_⟩
  intro ds
  rw [List.append_assoc, List.cons_append, Layout.scanFrom_text_append_quote hfront hgap]

end

end Sexpr
