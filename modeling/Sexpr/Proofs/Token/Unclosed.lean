import Sexpr.Proofs.Token.Place
import Sexpr.Proofs.Token.Region

/-!
# Quoted text that is left open

Scanning can fail in one way only: quoted text is never closed. Whether that happens is settled by
the walk through the regions of a text, which knows nothing of tokens. No word, marker, comment or
stray backslash makes the scanner see a quote where the walk does not, or miss one.

* `Region.not_inQuotes_of_valid`: where a text is laid out to its end, the walk does not end in
  quoted text;
* `lexemes_fail_iff_inQuotes`: **scanning fails exactly if the walk ends in quoted text**, at the
  quote that opened it, behind the lexemes of all that is in front of that quote.
-/

namespace Sexpr

namespace Region

/-- A quote behind `front` opens quoted text: the walk comes to it in code. With `body` behind it
the text is left open: the walk stays in it at every character to the end. -/
structure LeftOpen (comments : Bool) (front body : List Char) : Prop where
  opens : behind comments code front = code
  stays : ∀ read, read <+: body → (behind comments quoted read).InQuotes

variable {comments : Bool} {g body front : List Char} {l : Layout}

/-! ## Where the walk ends -/

/-- Quoted text that is left open is where the walk ends. -/
theorem LeftOpen.inQuotes (h : LeftOpen comments front body) :
    (behind comments code (front ++ '"' :: body)).InQuotes := by
  have hopen : step comments code '"' = quoted := rfl
  rw [behind_append, h.opens, behind_cons, hopen]
  exact h.stays body (List.prefix_refl body)

theorem behind_finalGap (hg : FinalGap comments g) :
    Gap comments g ∧ behind comments code g = code ∨ behind comments code g = comment := by
  cases hg with
  | closed hg => exact .inl ⟨hg, behind_gap hg⟩
  | unclosed hon hg hline =>
    right
    rw [behind_append, behind_gap hg, behind_cons, step_semicolon hon, behind_comment hline]

theorem not_inQuotes_of_valid (hl : l.Valid comments) :
    ¬ (behind comments code l.text).InQuotes := by
  rw [behind_text hl]
  rcases behind_finalGap hl.trailing with ⟨-, hcode⟩ | hcomment
  · rw [hcode]
    exact not_inQuotes_code
  · rw [hcomment]
    exact not_inQuotes_comment

/-- If the walk ends in code, no comment is left open at the end of a layout. -/
theorem gap_of_behind_eq_code (hl : l.Valid comments) (h : behind comments code l.text = code) :
    Gap comments l.trailing := by
  rw [behind_text hl] at h
  rcases behind_finalGap hl.trailing with ⟨hgap, -⟩ | hcomment
  · exact hgap
  · rw [hcomment] at h
    cases h

end Region

open Region

variable {comments : Bool} {text : String} {front body : List Char}

theorem not_inQuotes_of_lexemes {xs : List Lexeme} (h : lexemes comments text = .ok xs) :
    ¬ (behind comments code text.toList).InQuotes := by
  obtain ⟨l, hl, -, htext⟩ := exists_layout_of_lexemes h
  rw [← htext]
  exact not_inQuotes_of_valid hl

/-- If scanning fails, quoted text is left open. -/
theorem exists_leftOpen_of_lexemes {e : ScanError} (h : lexemes comments text = .error e) :
    ∃ front body, text.toList = front ++ '"' :: body ∧ LeftOpen comments front body := by
  rw [lexemes_eq] at h
  split at h <;> cases h
  rename_i hscan
  obtain ⟨front, body, hfront, hgap, htext, hnone, -, -⟩ := Layout.exists_of_scanFrom_error hscan
  exact ⟨front.text, body, htext, behind_layout hfront hgap, splitQuoted?_eq_none_iff.1 hnone⟩

/-- If quoted text is left open, the scanner fails at the quote that opens it, behind the lexemes of
what is in front of the quote. -/
theorem scanFrom_of_leftOpen (h : LeftOpen comments front body) :
    ∃ xs, lexemes comments (String.ofList front) = .ok xs ∧
      scanFrom comments {} (front ++ '"' :: body)
        = (xs, some (.unterminatedString (Location.behind front))) := by
  cases hfront : lexemes comments (String.ofList front) with
  | error e =>
    -- The walk would end in quoted text, but it comes to the quote in code.
    obtain ⟨front', body', htext, hopen⟩ := exists_leftOpen_of_lexemes hfront
    have hin := hopen.inQuotes
    rw [← htext, String.toList_ofList, h.opens] at hin
    exact absurd hin not_inQuotes_code
  | ok xs =>
    obtain ⟨l, hl, -, htext⟩ := exists_layout_of_lexemes hfront
    rw [String.toList_ofList] at htext
    subst htext
    have hgap := gap_of_behind_eq_code hl h.opens
    have hnone := splitQuoted?_eq_none_iff.2 h.stays
    rw [lexemes_eq, String.toList_ofList, Layout.scanFrom_text_eq hl] at hfront
    cases hfront
    refine ⟨_, rfl, ?_⟩
    rw [Layout.scanFrom_text_append_quote hl hgap, scanFrom_unclosed hnone,
      Position.toLocation_advance]
    simp

/-- **Scanning fails exactly if the walk ends in quoted text.** There is then a quote that opens the
text left open. Wherever such a quote is, the error gives its place, and the lexemes found before
the error are those of the text in front of it. -/
theorem lexemes_fail_iff_inQuotes (comments : Bool) (text : String) :
    ((∃ e, lexemes comments text = .error e) ↔
      behind comments .code text.toList = .quoted ∨
        behind comments .code text.toList = .escaped) ∧
    ((∃ e, lexemes comments text = .error e) →
      ∃ front body, text.toList = front ++ '"' :: body ∧ LeftOpen comments front body) ∧
    ∀ front body, text.toList = front ++ '"' :: body → LeftOpen comments front body →
      lexemes comments text = .error (.unterminatedString (Location.behind front)) ∧
      ∃ xs, lexemes comments (String.ofList front) = .ok xs ∧
        (Scanner.start comments text).drain.1
          = (xs, some (.unterminatedString (Location.behind front))) := by
  refine ⟨⟨?_, ?_⟩, ?_, ?_⟩
  · rintro ⟨e, he⟩
    obtain ⟨front, body, htext, hopen⟩ := exists_leftOpen_of_lexemes he
    rw [htext]
    exact hopen.inQuotes
  · intro hin
    cases hlexemes : lexemes comments text with
    | error e => exact ⟨e, rfl⟩
    | ok xs => exact absurd hin (not_inQuotes_of_lexemes hlexemes)
  · rintro ⟨e, he⟩
    exact exists_leftOpen_of_lexemes he
  · intro front body htext hopen
    obtain ⟨xs, hfront, hscan⟩ := scanFrom_of_leftOpen hopen
    rw [lexemes_eq comments text, Scanner.drain_start_eq, htext, hscan]
    exact ⟨rfl, xs, hfront, rfl⟩

/-- The quote in the comment opens nothing. The one behind `#` does, and a backslash takes the end
of the text for itself. -/
theorem lexemes_fail_iff_inQuotes_escaped :
    LeftOpen true "a;\"\n#".toList "c\\".toList ∧
    lexemes true "a;\"\n#\"c\\" = .error (.unterminatedString ⟨2, 2⟩) ∧
    ∃ xs, lexemes true "a;\"\n#" = .ok xs ∧ (Scanner.start true "a;\"\n#\"c\\").drain.1
      = (xs, some (.unterminatedString ⟨2, 2⟩)) := by
  have hopen : LeftOpen true "a;\"\n#".toList "c\\".toList :=
    ⟨by decide, splitQuoted?_eq_none_iff.1 (by decide)⟩
  exact ⟨hopen, (lexemes_fail_iff_inQuotes true "a;\"\n#\"c\\").2.2 _ _ (by decide) hopen⟩

end Sexpr
