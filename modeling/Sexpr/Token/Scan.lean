import Sexpr.Text.Blank
import Sexpr.Token.Basic

/-!
# The token at the front of a text

Between tokens lie gaps: blanks and, if they are recognised, comments from a `;` through the end of
the line. A token is a parenthesis, a marker, a quoted text up to its closing quote, or the longest
run of other characters. `Token.scan` finds the one a text starts with.

Every function here splits a text and loses nothing: what is taken and what is left make up the text
again. A token is never empty, so scanning makes progress.
-/

namespace Sexpr.Token

/-- Splits off the gap in front of a token. With comments, a `;` and all that follows it in its line
belong to the gap, the newline included. -/
def splitGap (comments : Bool) (cs : List Char) : List Char × List Char :=
  go false [] cs
where
  /-- `inComment` tells whether a `;` has been passed in this line. -/
  go (inComment : Bool) (taken : List Char) : List Char → List Char × List Char
    | [] => (taken.reverse, [])
    | c :: cs =>
      if inComment then go (c != '\n') (c :: taken) cs
      else if isBlank c then go false (c :: taken) cs
      else if comments && c == ';' then go true (c :: taken) cs
      else (taken.reverse, c :: cs)

/-- Splits off quoted text up to its closing quote, which is the first one that no backslash
escapes. The opening quote has been taken already. None if the text ends before that. -/
def splitQuoted? (cs : List Char) : Option (List Char × List Char) :=
  go false [] cs
where
  /-- `escaped` tells whether the next character has a backslash in front of it. -/
  go (escaped : Bool) (taken : List Char) : List Char → Option (List Char × List Char)
    | [] => none
    | c :: cs =>
      if escaped then go false (c :: taken) cs
      else if c == '"' then some ((c :: taken).reverse, cs)
      else go (c == '\\') (c :: taken) cs

/-- Whether an atom ends in front of a character, given what follows the character: at a blank, a
parenthesis, a double quote or a marker, and with comments at a `;`. -/
def endsAtom (comments : Bool) (c : Char) (cs : List Char) : Bool :=
  isBlank c || c == '(' || c == ')' || c == '"' || (comments && c == ';')
    || (Marker.split? (c :: cs)).isSome

/-- Splits off the longest run of atom characters. -/
def splitRun (comments : Bool) (cs : List Char) : List Char × List Char :=
  go [] cs
where
  go (taken : List Char) : List Char → List Char × List Char
    | [] => (taken.reverse, [])
    | c :: cs =>
      if endsAtom comments c cs then (taken.reverse, c :: cs) else go (c :: taken) cs

/-- What stands at the front of a text. -/
inductive Scan where
  /-- Nothing: the text is empty. -/
  | finished
  /-- A token, and what is left behind it. -/
  | found (token : Token) (rest : List Char)
  /-- Quoted text that is never closed. -/
  | unterminated

/-- The token a text starts with. The gap in front of it has been taken already. -/
def scan (comments : Bool) : List Char → Scan
  | [] => .finished
  | c :: cs =>
    match Marker.split? (c :: cs) with
    | some (m, rest) => .found (marker m) rest
    | none =>
      if c == '(' then .found opening cs
      else if c == ')' then .found closing cs
      else if c == '"' then
        match splitQuoted? cs with
        | some (body, rest) => .found (atom (String.ofList (c :: body))) rest
        | none => .unterminated
      else
        let (run, rest) := splitRun comments cs
        .found (atom (String.ofList (c :: run))) rest

/-! ## Nothing is lost -/

theorem splitGap_go_append (comments inComment : Bool) (taken cs : List Char) :
    (splitGap.go comments inComment taken cs).1 ++ (splitGap.go comments inComment taken cs).2
      = taken.reverse ++ cs := by
  fun_induction splitGap.go comments inComment taken cs <;> simp_all

/-- A gap and what follows it make up the text. -/
theorem splitGap_append (comments : Bool) (cs : List Char) :
    (splitGap comments cs).1 ++ (splitGap comments cs).2 = cs :=
  splitGap_go_append comments false [] cs

theorem splitQuoted?_go_append {escaped : Bool} {taken cs body rest : List Char}
    (h : splitQuoted?.go escaped taken cs = some (body, rest)) :
    body ++ rest = taken.reverse ++ cs := by
  fun_induction splitQuoted?.go escaped taken cs <;> simp_all
  obtain ⟨rfl, rfl⟩ := h
  simp

theorem splitQuoted?_append {cs body rest : List Char} (h : splitQuoted? cs = some (body, rest)) :
    body ++ rest = cs := by
  simpa using splitQuoted?_go_append h

theorem splitRun_go_append (comments : Bool) (taken cs : List Char) :
    (splitRun.go comments taken cs).1 ++ (splitRun.go comments taken cs).2
      = taken.reverse ++ cs := by
  fun_induction splitRun.go comments taken cs <;> simp_all

theorem splitRun_append (comments : Bool) (cs : List Char) :
    (splitRun comments cs).1 ++ (splitRun comments cs).2 = cs :=
  splitRun_go_append comments [] cs

/-! ## What is found -/

/-- The ways to find a token, by the character that the text starts with. -/
theorem scan_cases {comments : Bool} {c : Char} {cs rest : List Char} {t : Token}
    (h : scan comments (c :: cs) = .found t rest) :
    (∃ m, Marker.split? (c :: cs) = some (m, rest) ∧ t = marker m) ∨
    (c = '(' ∧ t = opening ∧ rest = cs) ∨ (c = ')' ∧ t = closing ∧ rest = cs) ∨
    (c = '"' ∧ ∃ body, splitQuoted? cs = some (body, rest) ∧
      t = atom (String.ofList (c :: body))) ∨
    (Marker.split? (c :: cs) = none ∧ c ≠ '(' ∧ c ≠ ')' ∧ c ≠ '"' ∧
      t = atom (String.ofList (c :: (splitRun comments cs).1)) ∧
      rest = (splitRun comments cs).2) := by
  rw [scan] at h
  split at h
  · rename_i m rest hm
    cases h
    exact .inl ⟨m, hm, rfl⟩
  rename_i hmarker
  split at h
  · rename_i hopen
    cases h
    exact .inr (.inl ⟨by simpa using hopen, rfl, rfl⟩)
  rename_i hopen
  split at h
  · rename_i hclose
    cases h
    exact .inr (.inr (.inl ⟨by simpa using hclose, rfl, rfl⟩))
  rename_i hclose
  split at h
  · rename_i hquote
    split at h
    · rename_i body rest hbody
      cases h
      exact .inr (.inr (.inr (.inl ⟨by simpa using hquote, body, hbody, rfl⟩)))
    · cases h
  · rename_i hquote
    cases h
    simp only [beq_iff_eq] at hopen hclose hquote
    exact .inr (.inr (.inr (.inr ⟨hmarker, hopen, hclose, hquote, rfl, rfl⟩)))

/-- A token found and what is left behind it make up the text, and the token is not empty. -/
theorem scan_spec {comments : Bool} {cs rest : List Char} {t : Token}
    (h : scan comments cs = .found t rest) :
    t.text.toList ++ rest = cs ∧ t.text.toList ≠ [] := by
  cases cs with
  | nil => cases h
  | cons c cs =>
    rcases scan_cases h with ⟨m, hm, rfl⟩ | ⟨rfl, rfl, rfl⟩ | ⟨rfl, rfl, rfl⟩ |
      ⟨rfl, body, hbody, rfl⟩ | ⟨-, -, -, -, rfl, rfl⟩
    · exact ⟨Marker.append_of_split?_eq_some hm, Marker.text_toList_ne_nil m⟩
    · exact ⟨rfl, by decide⟩
    · exact ⟨rfl, by decide⟩
    · simp [text, splitQuoted?_append hbody]
    · simp [text, splitRun_append]

/-- A token found and what is left behind it make up the text. -/
theorem scan_append {comments : Bool} {cs rest : List Char} {t : Token}
    (h : scan comments cs = .found t rest) : t.text.toList ++ rest = cs := (scan_spec h).1

/-- A token found is not empty. -/
theorem text_ne_nil_of_scan {comments : Bool} {cs rest : List Char} {t : Token}
    (h : scan comments cs = .found t rest) : t.text.toList ≠ [] := (scan_spec h).2

/-- What is left behind a token is shorter than the text. -/
theorem length_lt_of_scan {comments : Bool} {cs rest : List Char} {t : Token}
    (h : scan comments cs = .found t rest) : rest.length < cs.length := by
  have hlen := congrArg List.length (scan_append h)
  have hpos := List.length_pos_iff.2 (text_ne_nil_of_scan h)
  rw [List.length_append] at hlen
  omega

end Sexpr.Token
