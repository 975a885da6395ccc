import Sexpr.Proofs.Form.Sequel
import Sexpr.Proofs.Program.Reading

/-!
# Texts in a row

A text that reads well, a newline and another text read to what they read to one by one. If the
other text fails, the whole fails with the same error, as many lines further down as the first text
takes up. Stage by stage: `lexemes_append_newline`, `Program.parse_append_newline` and, with
`Program.expand_append`, the main statement `Program.read_append_newline`.
-/

namespace Sexpr

namespace Error

/-- The same error some lines further down. What has no place stays as it is. -/
def down (n : Nat) : Error → Error
  | io e => io e
  | scan e => scan (e.down n)
  | parse e => parse (e.down n)
  | expand e => expand e

theorem location?_down (n : Nat) (e : Error) :
    (e.down n).location? = e.location?.map (.down n) := by
  cases e with
  | io e | expand e => rfl
  | scan e => cases e; rfl
  | parse e => cases e <;> rfl

end Error

/-- How many lines a text and the newline behind it take up. -/
def lineCount (text : String) : Nat := 1 + text.toList.count '\n'

/-- Behind a text with lexemes and a newline, a text has its own lexemes, further down. -/
theorem lexemes_append_newline {comments : Bool} {first : String} {xs : List Lexeme}
    (h : lexemes comments first = .ok xs) (second : String) :
    lexemes comments (first ++ "\n" ++ second) =
      match lexemes comments second with
      | .ok ys => .ok (xs ++ ys.map (.down (lineCount first)))
      | .error e => .error (e.down (lineCount first)) := by
  have hfirst : scanFrom comments {} first.toList = (xs, none) := by
    rw [lexemes_eq] at h
    split at h <;> cases h
    assumption
  have htext : (first ++ "\n" ++ second).toList = first.toList ++ '\n' :: second.toList := by
    simp
  have hbelow : (Position.advance {} (first.toList ++ ['\n'])).toLocation
      = Location.down (lineCount first) ({} : Position).toLocation :=
    Position.toLocation_advance_newline {} first.toList
  rw [lexemes_eq, lexemes_eq, htext, scanFrom_append_newline hfirst, scanFrom_down hbelow]
  rcases scanFrom comments {} second.toList with ⟨ys, _ | e⟩ <;> rfl

namespace Program

variable {options : Options} {first : String} {p : Program}

/-- Behind a text that parses and a newline, a text parses as it does on its own. -/
theorem parse_append_newline (h : Program.parse options first = .ok p) (second : String) :
    Program.parse options (first ++ "\n" ++ second) =
      match Program.parse options second with
      | .ok q => .ok (p ++ q)
      | .error e => .error (e.down (lineCount first)) := by
  obtain ⟨xs, hscan, hparse⟩ := parse_eq_ok_iff.1 h
  rw [parse_eq, parse_eq, lexemes_append_newline hscan]
  cases lexemes options.comments second with
  | error e => rfl
  | ok ys =>
    simp only
    rw [Program.ofLexemes_append hparse]
    cases Program.ofLexemes options.parseDepth ys <;> rfl

/-- **Behind a text that reads well and a newline, a text reads as it does on its own**, or fails
with the same error, moved down by the lines of the first text, its column unchanged. -/
theorem read_append_newline (h : Program.read options first = .ok p) (second : String) :
    (∀ q, Program.read options second = .ok q →
      Program.read options (first ++ "\n" ++ second) = .ok (p ++ q)) ∧
    ∀ e, Program.read options second = .error e →
      Program.read options (first ++ "\n" ++ second)
        = .error (e.down (1 + first.toList.count '\n')) ∧
      (e.down (1 + first.toList.count '\n')).location?
        = e.location?.map fun l => ⟨l.line + (1 + first.toList.count '\n'), l.column⟩ := by
  obtain ⟨raw, hparse, hexpand⟩ := read_eq_ok_iff.1 h
  have hwhole : Program.read options (first ++ "\n" ++ second) =
      match Program.read options second with
      | .ok q => .ok (p ++ q)
      | .error e => .error (e.down (lineCount first)) := by
    rw [read_eq, read_eq, parse_append_newline hparse]
    cases Program.parse options second with
    | error e => rfl
    | ok other =>
      simp only
      rw [Program.expand_append hexpand]
      cases Program.expand options.backquote options.expandDepth other <;> rfl
  constructor
  · intro q hq
    rw [hwhole, hq]
  · intro e he
    rw [hwhole, he]
    exact ⟨rfl, Error.location?_down _ e⟩

/-- The comment at the end of the first text does not reach into the second, and both lines of the
first are counted. -/
theorem read_append_newline_comment :
    Program.read { comments := true, parseDepth := 1, expandDepth := 2 } "(a\n'b) ; open"
      = .ok [.list [.symbol "a", .tagged "quote" (.symbol "b")]] ∧
    Program.read { comments := true, parseDepth := 1, expandDepth := 2 }
        ("(a\n'b) ; open" ++ "\n" ++ ",c")
      = .ok [.list [.symbol "a", .tagged "quote" (.symbol "b")], .tagged "unquote" (.symbol "c")] ∧
    Program.read { comments := true, parseDepth := 1, expandDepth := 2 }
        ("(a\n'b) ; open" ++ "\n" ++ "x\n (y")
      = .error (.parse (.unexpectedEnd (some ⟨4, 2⟩))) := by
  have hfirst : Program.read { comments := true, parseDepth := 1, expandDepth := 2 }
      "(a\n'b) ; open" = .ok [.list [.symbol "a", .tagged "quote" (.symbol "b")]] :=
    read_eq_ok_iff.2 ⟨[.list [.symbol "a", .marker .quote, .symbol "b"]],
      by with_unfolding_all rfl, rfl⟩
  have hgood : Program.read { comments := true, parseDepth := 1, expandDepth := 2 } ",c"
      = .ok [.tagged "unquote" (.symbol "c")] :=
    read_eq_ok_iff.2 ⟨[.marker .unquote, .symbol "c"], by with_unfolding_all rfl, rfl⟩
  have hparse : Program.parse { comments := true, parseDepth := 1, expandDepth := 2 } "x\n (y"
      = .error (.parse (.unexpectedEnd (some ⟨2, 2⟩))) := by
    with_unfolding_all rfl
  have hbad : Program.read { comments := true, parseDepth := 1, expandDepth := 2 } "x\n (y"
      = .error (.parse (.unexpectedEnd (some ⟨2, 2⟩))) := by
    rw [read_eq, hparse]
  exact ⟨hfirst, (read_append_newline hfirst _).1 _ hgood,
    ((read_append_newline hfirst _).2 _ hbad).1⟩

end Program

end Sexpr
