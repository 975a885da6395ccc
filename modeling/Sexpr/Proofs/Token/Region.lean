import Sexpr.Proofs.Token.Layout

/-!
# Quoted text and comments, without tokens

One walk through a text tells quoted text and comments from everything else. It looks at quotes,
backslashes, semicolons and newlines and knows of no token: no word, no marker and no blank makes a
difference to it. Whole gaps and whole tokens lead it back to where it was.

* `Region.behind_gap`, `Region.behind_token`: behind a gap and behind a token the walk is in code;
* `Region.behind_layout`: so it is behind all that the scanner has made out, with its gaps;
* `Region.splitQuoted?_eq_none_iff`: the scanner finds no closing quote exactly if the walk stays in
  quoted text to the end.
-/

namespace Sexpr

/-- What the next character of a text belongs to. -/
inductive Region where
  /-- Tokens other than quoted text, and blanks. -/
  | code
  | quoted
  /-- Quoted text, behind a backslash. -/
  | escaped
  /-- A comment, up to its newline. -/
  | comment
deriving DecidableEq, Repr

namespace Region

/-- The region behind a character. A backslash counts inside of quoted text alone, and a `;` only
outside of it, if comments are recognised. -/
def step (comments : Bool) : Region → Char → Region
  | code, c => if c = '"' then quoted else if comments && c == ';' then comment else code
  | quoted, c => if c = '"' then code else if c = '\\' then escaped else quoted
  | escaped, _ => quoted
  | comment, c => if c = '\n' then code else comment

/-- The region behind a run of characters. -/
def behind (comments : Bool) (r : Region) (cs : List Char) : Region := cs.foldl (step comments) r

/-- Inside of quoted text, behind a backslash or not. -/
def InQuotes (r : Region) : Prop := r = quoted ∨ r = escaped

variable {comments : Bool} {r : Region} {c : Char} {cs g line body : List Char}

@[simp] theorem behind_nil : behind comments r [] = r := rfl

@[simp] theorem behind_cons :
    behind comments r (c :: cs) = behind comments (r.step comments c) cs := rfl

@[simp] theorem behind_append (cs ds : List Char) :
    behind comments r (cs ++ ds) = behind comments (behind comments r cs) ds := List.foldl_append

theorem step_code_eq (hquote : c ≠ '"') (hcomment : (comments && c == ';') = false) :
    step comments code c = code := by
  simp [step, hquote, hcomment]

theorem not_inQuotes_code : ¬ code.InQuotes := by simp [InQuotes]

theorem not_inQuotes_comment : ¬ comment.InQuotes := by simp [InQuotes]

/-! ## Gaps -/

theorem step_blank (h : isBlank c = true) : step comments code c = code := by
  have hquote : c ≠ '"' := by
    rintro rfl
    exact absurd h (by decide)
  have hsemicolon : c ≠ ';' := by
    rintro rfl
    exact absurd h (by decide)
  exact step_code_eq hquote (by simp [hsemicolon])

/-- A comment goes on to the end of its line. -/
theorem behind_comment (hline : '\n' ∉ line) : behind comments comment line = comment := by
  induction line with
  | nil => rfl
  | cons c line ih =>
    simp only [List.mem_cons, not_or] at hline
    rw [behind_cons, step, if_neg (Ne.symm hline.1), ih hline.2]

theorem step_semicolon (hon : comments = true) : step comments code ';' = comment := by
  subst hon
  rfl

theorem behind_gap (hg : Gap comments g) : behind comments code g = code := by
  induction hg with
  | nil => rfl
  | blank hc _ ih => rw [behind_cons, step_blank hc, ih]
  | comment hon hline _ ih =>
    rw [behind_cons, step_semicolon hon, behind_append, behind_comment hline, behind_cons]
    exact ih

/-! ## Tokens -/

theorem behind_body (h : Token.LiteralBody body) : behind comments quoted body = quoted := by
  induction h with
  | nil => rfl
  | plain hquote hslash _ ih => rw [behind_cons, step, if_neg hquote, if_neg hslash, ih]
  | escaped c _ ih => exact ih

theorem behind_literal (h : Token.IsLiteral cs) : behind comments code cs = code := by
  obtain ⟨body, hbody, rfl⟩ := h
  have hopen : step comments code '"' = quoted := rfl
  rw [behind_cons, hopen, behind_append, behind_body hbody]
  rfl

theorem step_word (h : Token.stopsWord comments c = false) : step comments code c = code := by
  simp only [Token.stopsWord, Bool.or_eq_false_iff] at h
  refine step_code_eq ?_ h.2
  rintro rfl
  simp at h

theorem behind_word (h : ∀ c ∈ cs, Token.stopsWord comments c = false) :
    behind comments code cs = code := by
  induction cs with
  | nil => rfl
  | cons c cs ih =>
    obtain ⟨hc, hcs⟩ := List.forall_mem_cons.1 h
    rw [behind_cons, step_word hc, ih hcs]

theorem behind_token {t : Token} (ht : t.WellFormed comments) :
    behind comments code t.text.toList = code := by
  cases t with
  | opening => cases comments <;> rfl
  | closing => cases comments <;> rfl
  | marker m => cases m <;> cases comments <;> decide
  | atom text =>
    rcases ht with hliteral | hword
    · exact behind_literal hliteral
    · exact behind_word hword.2

/-- Behind the tokens of a layout nothing is left open, so that its last gap decides. -/
theorem behind_text {l : Layout} (hl : l.Valid comments) :
    behind comments code l.text = behind comments code l.trailing := by
  induction l using Layout.induction with
  | nil trailing => rfl
  | cons g t l ih =>
    obtain ⟨hg, ht, -, htail⟩ := Layout.valid_cons_iff.1 hl
    rw [Layout.text_cons, behind_append, behind_gap hg, behind_append, behind_token ht]
    exact ih htail

/-- Where whole tokens with whole gaps are laid out, nothing is left open behind them. -/
theorem behind_layout {l : Layout} (hl : l.Valid comments) (hgap : Gap comments l.trailing) :
    behind comments code l.text = code :=
  (behind_text hl).trans (behind_gap hgap)

/-! ## Quoted text and its closing quote -/

/-- The flag of the loop that looks for the closing quote tells the two regions of quoted text
apart. -/
theorem inQuotes_of_splitQuoted?_go {esc : Bool} {taken read : List Char}
    (h : Token.splitQuoted?.go esc taken cs = none) (hread : read <+: cs) :
    (behind comments (if esc then escaped else quoted) read).InQuotes := by
  fun_induction Token.splitQuoted?.go esc taken cs generalizing read with
  | case1 esc taken =>
    rw [List.prefix_nil.1 hread]
    cases esc <;> simp [InQuotes]
  | case2 taken c cs ih =>
    cases read with
    | nil => simp [InQuotes]
    | cons d read =>
      obtain ⟨rfl, htail⟩ := List.cons_prefix_cons.1 hread
      exact ih h htail
  | case3 esc taken c cs hesc hc => cases h
  | case4 esc taken c cs hesc hc ih =>
    cases read with
    | nil => simp [InQuotes, hesc]
    | cons d read =>
      obtain ⟨rfl, htail⟩ := List.cons_prefix_cons.1 hread
      have hstep : step comments quoted d = if d == '\\' then escaped else quoted := by
        simp_all [step]
      rw [if_neg hesc, behind_cons, hstep]
      exact ih h htail

/-- The quote that closes a literal leads the walk back into code. -/
theorem behind_splitQuoted? {found rest : List Char}
    (h : Token.splitQuoted? cs = some (found, rest)) : behind comments quoted found = code := by
  obtain ⟨inner, hinner, rfl⟩ := Token.literalBody_of_splitQuoted? h
  rw [behind_append, behind_body hinner]
  rfl

theorem splitQuoted?_eq_none_iff : Token.splitQuoted? body = none ↔
    ∀ read, read <+: body → (behind comments quoted read).InQuotes := by
  constructor
  · intro h read hread
    exact inQuotes_of_splitQuoted?_go h hread
  · intro h
    cases hsplit : Token.splitQuoted? body with
    | none => rfl
    | some split =>
      obtain ⟨found, rest⟩ := split
      have hfound : found <+: body := ⟨rest, Token.splitQuoted?_append hsplit⟩
      have hin := h found hfound
      rw [behind_splitQuoted? hsplit] at hin
      exact absurd hin not_inQuotes_code

end Region

end Sexpr
