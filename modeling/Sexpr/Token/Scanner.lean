import Sexpr.Log
import Sexpr.Token.Scan

/-!
# Scanning a whole text

A scanner walks through a text from token to token and keeps track of the place it has reached. It
can be asked for the next lexeme in two ways: `nextLexeme` just scans, while `next` also remembers a
failure and yields nothing after it.

The only failure is quoted text that is never closed. It takes all of the text that is left, so that
a scanner that has failed is at the end.
-/

namespace Sexpr

/-- Why a text has no tokens. -/
inductive ScanError where
  /-- Quoted text is never closed; the location is that of its opening quote. -/
  | unterminatedString (location : Location)
deriving DecidableEq, Repr

/-- The state of scanning a text. -/
structure Scanner where
  /-- Whether `;` starts a comment. -/
  comments : Bool
  /-- What has not been scanned yet. -/
  rest : List Char
  /-- The place of the first character of the rest. -/
  position : Position := {}
  /-- Whether `next` has met an error. -/
  failed : Bool := false
  log : Log := #[]

namespace Scanner

/-- A scanner at the start of a text, which goes on with a log. -/
def start (comments : Bool) (text : String) (log : Log := #[]) : Scanner :=
  { comments, rest := text.toList, log }

/-- The next lexeme, or none at the end of the text. -/
def nextLexeme (s : Scanner) : Except ScanError (Option Lexeme) × Scanner :=
  let (gap, rest) := Token.splitGap s.comments s.rest
  let first := s.position.advance gap
  match Token.scan s.comments rest with
  | .finished => (.ok none, { s with rest := [], position := first })
  | .found token behind =>
    (.ok (some { token, location := first.toLocation }),
      { s with
        rest := behind
        position := first.advance token.text.toList
        log := s.log.push (.token token.text first.toLocation) })
  | .unterminated =>
    (.error (.unterminatedString first.toLocation),
      { s with rest := [], position := first.advance rest })

/-- The next lexeme, or none at the end of the text and after an error. -/
def next (s : Scanner) : Except ScanError (Option Lexeme) × Scanner :=
  if s.failed then (.ok none, s)
  else
    match s.nextLexeme with
    | (.ok lexeme?, s) => (.ok lexeme?, s)
    | (.error e, s) => (.error e, { s with failed := true })

theorem length_lt_of_nextLexeme {s t : Scanner} {x : Lexeme}
    (h : s.nextLexeme = (.ok (some x), t)) : t.rest.length < s.rest.length := by
  have hgap := congrArg List.length (Token.splitGap_append s.comments s.rest)
  rw [List.length_append] at hgap
  unfold nextLexeme at h
  simp only at h
  split at h
  · cases h
  · rename_i hscan
    cases h
    have := Token.length_lt_of_scan hscan
    simp only
    omega
  · cases h

/-- Each lexeme leaves less of the text. -/
theorem length_lt_of_next {s t : Scanner} {x : Lexeme} (h : s.next = (.ok (some x), t)) :
    t.rest.length < s.rest.length := by
  unfold next at h
  split at h
  · cases h
  · split at h
    · rename_i hl
      cases h
      exact length_lt_of_nextLexeme hl
    · cases h

/-- All that `next` yields until it yields nothing: lexemes, and perhaps an error behind them. -/
def drain (s : Scanner) : (List Lexeme × Option ScanError) × Scanner :=
  go s []
where
  go (s : Scanner) (found : List Lexeme) : (List Lexeme × Option ScanError) × Scanner :=
    match _h : s.next with
    | (.ok (some x), t) => go t (x :: found)
    | (.ok none, t) => ((found.reverse, none), t)
    | (.error e, t) => ((found.reverse, some e), t)
  termination_by s.rest.length
  decreasing_by exact length_lt_of_next _h

/-- All lexemes that are left, or the error that scanning ends with. -/
def collect (s : Scanner) : Except ScanError (List Lexeme) × Scanner :=
  match s.drain with
  | ((found, none), t) => (.ok found, t)
  | ((_, some e), t) => (.error e, t)

end Scanner

/-- The lexemes of a text. -/
def lexemes (comments : Bool) (text : String) : Except ScanError (List Lexeme) :=
  (Scanner.start comments text).collect.1

/-- The tokens of a text, without comments. -/
def tokens (text : String) : Except ScanError (List Token) :=
  (lexemes false text).map fun found => found.map Lexeme.token

end Sexpr
