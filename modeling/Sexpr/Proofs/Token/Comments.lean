import Sexpr.Proofs.Token.Region
import Sexpr.Proofs.Token.Seam

/-!
# Comments as blanks

A comment is worth as much as blanks in its place. `blankComments` puts a blank for every character
of every comment and leaves the newline behind it, so that no character moves.

* `gap_blankFrom`, `Region.blankFrom_token`: gaps become gaps of blanks alone, tokens stay;
* `Layout.valid_blanked`: so a layout stays one when comments are not recognised any more;
* `lexemes_blankComments`: **a text with comments has the lexemes, or the error, of the text with
  blanks in their place**, all at the same locations.
-/

namespace Sexpr

/-- Text that begins in a region, with a blank in the place of every character of a comment. -/
def blankFrom : Region → List Char → List Char
  | _, [] => []
  | r, c :: cs =>
    (if r.step true c = .comment then ' ' else c) :: blankFrom (r.step true c) cs

/-- A text with a blank in the place of every character of a comment. The newline that ends a
comment is not part of it. -/
def blankComments (text : String) : String := String.ofList (blankFrom .code text.toList)

open Region

variable {r : Region} {c : Char} {cs g line body : List Char} {t u : Token}

theorem blankFrom_cons_of_ne (h : r.step true c ≠ comment) :
    blankFrom r (c :: cs) = c :: blankFrom (r.step true c) cs := by
  rw [blankFrom, if_neg h]

theorem blankFrom_append (cs ds : List Char) :
    blankFrom r (cs ++ ds) = blankFrom r cs ++ blankFrom (behind true r cs) ds := by
  induction cs generalizing r with
  | nil => rfl
  | cons c cs ih => simp [blankFrom, ih]

/-! ## Nothing moves -/

/-- What stands in the place of a character is a newline if and only if the character is. -/
theorem eq_newline_blank (r : Region) (c : Char) :
    (if r.step true c = .comment then ' ' else c) = '\n' ↔ c = '\n' := by
  split
  · rename_i h
    constructor
    · intro heq
      exact absurd heq (by decide)
    · rintro rfl
      cases r <;> exact absurd h (by decide)
  · exact Iff.rfl

theorem Position.toLocation_step_eq {p q : Position} (h : q.toLocation = p.toLocation) {c d : Char}
    (hnewline : d = '\n' ↔ c = '\n') : (q.step d).toLocation = (p.step c).toLocation := by
  have hline : q.line = p.line := congrArg Location.line h
  have hcolumn : q.column = p.column := congrArg Location.column h
  by_cases hc : c = '\n'
  · simp [step, hc, hnewline.2 hc, hline]
  · have hd : d ≠ '\n' := fun hd => hc (hnewline.1 hd)
    simp [step, hc, hd, hline, hcolumn]

/-- Where a walk goes depends on the location it starts at, and not on the offset. -/
theorem Position.toLocation_advance_eq {p q : Position} (h : q.toLocation = p.toLocation)
    (cs : List Char) : (q.advance cs).toLocation = (p.advance cs).toLocation :=
  toLocation_advance_down (show q.toLocation = p.toLocation.down 0 from h) cs

/-- Only offsets in bytes may change: another character may take another number of them. -/
theorem Position.toLocation_advance_blankFrom {p q : Position} (h : q.toLocation = p.toLocation)
    (r : Region) (cs : List Char) :
    (q.advance (blankFrom r cs)).toLocation = (p.advance cs).toLocation := by
  induction cs generalizing r p q with
  | nil => exact h
  | cons c cs ih => exact ih (toLocation_step_eq h (eq_newline_blank r c)) _

/-! ## Gaps and tokens -/

/-- A comment without its newline comes out as blanks. -/
theorem gap_blankFrom_comment (hline : '\n' ∉ line) : Gap false (blankFrom comment line) := by
  induction line with
  | nil => exact .nil
  | cons c line ih =>
    simp only [List.mem_cons, not_or] at hline
    have hstep : step true comment c = comment := by simp [step, Ne.symm hline.1]
    rw [blankFrom, if_pos hstep, hstep]
    exact .blank (by decide) (ih hline.2)

theorem gap_blankFrom (hg : Gap true g) : Gap false (blankFrom code g) := by
  induction hg with
  | nil => exact .nil
  | blank hc _ ih =>
    rw [blankFrom_cons_of_ne (by simp [step_blank hc]), step_blank hc]
    exact .blank hc ih
  | @comment line g _ hline _ ih =>
    have hrest : blankFrom comment ('\n' :: g) = '\n' :: blankFrom code g := rfl
    rw [blankFrom, if_pos (by decide), step_semicolon rfl, blankFrom_append,
      behind_comment hline, hrest]
    exact .blank (by decide) ((gap_blankFrom_comment hline).append (.blank (by decide) ih))

theorem finalGap_blankFrom (hg : FinalGap true g) : FinalGap false (blankFrom code g) := by
  cases hg with
  | closed hg => exact .closed (gap_blankFrom hg)
  | unclosed _ hg hline =>
    rw [blankFrom_append, behind_gap hg, blankFrom, if_pos (by decide), step_semicolon rfl]
    exact .closed ((gap_blankFrom hg).append (.blank (by decide) (gap_blankFrom_comment hline)))

namespace Region

theorem step_quoted_ne_comment (c : Char) : step true quoted c ≠ comment := by
  rw [step]
  split_ifs <;> decide

theorem blankFrom_body (h : Token.LiteralBody body) : blankFrom quoted body = body := by
  induction h with
  | nil => rfl
  | @plain c cs hquote hslash _ ih =>
    have hstep : step true quoted c = quoted := by simp [step, hquote, hslash]
    rw [blankFrom_cons_of_ne (step_quoted_ne_comment c), hstep, ih]
  | escaped c _ ih => exact congrArg ('\\' :: c :: ·) ih

theorem blankFrom_literal (h : Token.IsLiteral cs) : blankFrom code cs = cs := by
  obtain ⟨body, hbody, rfl⟩ := h
  have hopen : step true code '"' = quoted := rfl
  rw [blankFrom_cons_of_ne (by decide), hopen, blankFrom_append, blankFrom_body hbody,
    behind_body hbody]
  rfl

theorem blankFrom_word (h : ∀ c ∈ cs, Token.stopsWord true c = false) : blankFrom code cs = cs := by
  induction cs with
  | nil => rfl
  | cons c cs ih =>
    obtain ⟨hc, hcs⟩ := List.forall_mem_cons.1 h
    rw [blankFrom_cons_of_ne (by simp [step_word hc]), step_word hc, ih hcs]

theorem blankFrom_token (ht : t.WellFormed true) :
    blankFrom code t.text.toList = t.text.toList := by
  cases t with
  | opening | closing => rfl
  | marker m => cases m <;> decide
  | atom text =>
    rcases ht with hliteral | hword
    · exact blankFrom_literal hliteral
    · exact blankFrom_word hword.2

/-- There are no comments in quoted text. -/
theorem blankFrom_of_inQuotes (h : ∀ read, read <+: cs → (behind true r read).InQuotes) :
    blankFrom r cs = cs := by
  induction cs generalizing r with
  | nil => rfl
  | cons c cs ih =>
    have hstep : r.step true c ≠ comment := by
      intro heq
      have hin := h [c] (by simp)
      rw [behind_cons, heq] at hin
      exact not_inQuotes_comment hin
    rw [blankFrom_cons_of_ne hstep, ih fun read hread => h (c :: read) (by simpa using hread)]

end Region

namespace Token

theorem stopsWord_without_comments (h : stopsWord true c = false) : stopsWord false c = false := by
  simp only [stopsWord, Bool.or_eq_false_iff] at h ⊢
  exact ⟨h.1, rfl⟩

/-- A token is one too where comments are not recognised. -/
theorem WellFormed.without_comments (ht : t.WellFormed true) : t.WellFormed false := by
  cases t with
  | opening | closing | marker m => trivial
  | atom text =>
    exact ht.imp_right fun ⟨hne, hword⟩ =>
      ⟨hne, fun c hc => stopsWord_without_comments (hword c hc)⟩

theorem IsBare.with_comments (ht : t.WellFormed true) (h : t.IsBare false) : t.IsBare true := by
  cases t with
  | opening | closing | marker m => exact h
  | atom text => exact ht.resolve_left fun hliteral => hliteral.not_isWord h

theorem NeedsGap.with_comments (ht : t.WellFormed true) (hu : u.WellFormed true)
    (h : NeedsGap false t u) : NeedsGap true t u := by
  rcases h with ⟨htb, hub⟩ | hcomma | ⟨htb, hhash⟩
  · exact .inl ⟨htb.with_comments ht, hub.with_comments hu⟩
  · exact .inr (.inl hcomma)
  · exact .inr (.inr ⟨htb.with_comments ht, hhash⟩)

end Token

/-! ## Layouts -/

namespace Layout

variable {l : Layout}

/-- The layout with blanks in the place of its comments. -/
def blanked (l : Layout) : Layout :=
  ⟨l.items.map fun i => (blankFrom .code i.1, i.2), blankFrom .code l.trailing⟩

theorem blanked_cons : (cons g t l).blanked = cons (blankFrom .code g) t l.blanked := rfl

theorem valid_blanked (hl : l.Valid true) : l.blanked.Valid false := by
  refine ⟨?_, ?_, finalGap_blankFrom hl.trailing, ?_⟩
  · intro i hi
    obtain ⟨j, hj, rfl⟩ := List.mem_map.1 hi
    exact gap_blankFrom (hl.gap j hj)
  · intro i hi
    obtain ⟨j, hj, rfl⟩ := List.mem_map.1 hi
    exact (hl.token j hj).without_comments
  · rw [blanked, List.isChain_map]
    refine hl.apart.imp_of_mem_imp fun i j hi hj hgap hneeds => ?_
    have hne := hgap (hneeds.with_comments (hl.token i hi) (hl.token j hj))
    obtain ⟨c, cs, heq⟩ := List.exists_cons_of_ne_nil hne
    simp [heq, blankFrom]

theorem text_blanked (hl : l.Valid true) : l.blanked.text = blankFrom .code l.text := by
  induction l using Layout.induction with
  | nil g => rfl
  | cons g t l ih =>
    obtain ⟨hg, ht, -, htail⟩ := valid_cons_iff.1 hl
    rw [blanked_cons, text_cons, text_cons, ih htail, blankFrom_append, behind_gap hg,
      blankFrom_append, behind_token ht, blankFrom_token ht]

theorem lexemesAt_blanked {p q : Position} (h : q.toLocation = p.toLocation) (l : Layout) :
    lexemesAt q l.blanked.items = lexemesAt p l.items := by
  induction l using Layout.induction generalizing p q with
  | nil g => rfl
  | cons g t l ih =>
    have hfirst := Position.toLocation_advance_blankFrom h .code g
    have hbehind : ((q.advance (blankFrom .code g)).advance t.text.toList).toLocation
        = ((p.advance g).advance t.text.toList).toLocation :=
      Position.toLocation_advance_eq hfirst t.text.toList
    rw [blanked_cons, cons, cons, lexemesAt, lexemesAt, hfirst, ih hbehind]

end Layout

/-! ## Scanning -/

/-- With blanks for its comments a text scans as it did, wherever it begins. -/
theorem scanFrom_blankFrom (p : Position) (cs : List Char) :
    scanFrom false p (blankFrom .code cs) = scanFrom true p cs := by
  rcases h : scanFrom true p cs with ⟨xs, _ | e⟩
  · obtain ⟨l, hl, -, rfl⟩ := Layout.exists_of_scanFrom h
    rw [← h, ← Layout.text_blanked hl, Layout.scanFrom_text_eq (Layout.valid_blanked hl),
      Layout.scanFrom_text_eq hl, Layout.lexemesAt_blanked rfl]
  · -- All in front of the open quote is laid out, and from the quote on there is no comment.
    obtain ⟨front, body, hfront, hgap, rfl, hnone, rfl, rfl⟩ := Layout.exists_of_scanFrom_error h
    have htext :
        blankFrom .code (front.text ++ '"' :: body) = front.blanked.text ++ '"' :: body := by
      rw [blankFrom_append, behind_layout hfront hgap, ← Layout.text_blanked hfront,
        blankFrom_cons_of_ne (by decide)]
      exact congrArg (front.blanked.text ++ '"' :: ·)
        (blankFrom_of_inQuotes (splitQuoted?_eq_none_iff.1 hnone))
    have hplace :
        (p.advance front.blanked.text).toLocation = (p.advance front.text).toLocation := by
      rw [Layout.text_blanked hfront]
      exact Position.toLocation_advance_blankFrom rfl _ _
    rw [htext, Layout.scanFrom_text_append_quote (Layout.valid_blanked hfront) (gap_blankFrom hgap),
      scanFrom_unclosed hnone, Layout.lexemesAt_blanked rfl, hplace]
    simp

/-- **Comments are worth as much as blanks.** A text read with comments has the same lexemes at the
same locations, or the same error, as the text with a blank for every character of a comment, read
without. -/
theorem lexemes_blankComments (text : String) :
    lexemes true text = lexemes false (blankComments text) := by
  rw [lexemes_eq, lexemes_eq, blankComments, String.toList_ofList, scanFrom_blankFrom]

/-- Semicolons in quoted text stay, and so does the newline behind a comment. -/
example : blankComments "a;b\n\";\" ; \"" = "a  \n\";\"    " := by decide

end Sexpr
