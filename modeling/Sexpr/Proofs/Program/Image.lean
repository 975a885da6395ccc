import Sexpr.Proofs.Form.Again
import Sexpr.Proofs.Program.Printing
import Sexpr.Proofs.Token.Place

/-!
# What comes of reading

Not every program is the program of a text, and not every program that was read is read again from
what is printed for it. Which ones are is a matter of their atoms and their depth alone:

* `Program.exists_text_iff`: **some text parses to a program exactly if it nests no deeper than
  allowed and its atoms are spelled as words and string literals are**;
* `Program.read_print_of_read`: **a program that was read, printed in full, reads to itself as far
  as its depth allows**. Applying markers makes programs deeper, so it may exceed the parser's
  limit, and if not that, the expander's; nothing else can go wrong.
-/

namespace Sexpr

/-! ## Printed in full -/

namespace Program

variable {options : Options} {text : String} {p q : Program}

/-- A program that nests too deeply is refused for that, at one of its opening parentheses. -/
theorem parse_print_tooDeep (ha : ∀ a ∈ Form.atomsAll p, a.Readable options.comments)
    (hd : options.parseDepth < p.depth) : ∃ l, Program.parse options p.print =
      .error (.parse (.recursionLimitExceeded options.parseDepth (some l))) := by
  obtain ⟨⟨xs, hscan, htokens⟩, hclassified⟩ := lexemes_printProgram (fun _ => none) ha
  rw [← Formatter.plain_eq_spelling, Formatter.shortenAll_plain] at htokens hclassified
  obtain ⟨x, hx, hparse⟩ := ofLexemes_of_flatten_tooDeep hclassified hd htokens
  obtain ⟨us, vs, rfl⟩ := List.append_of_mem hx
  obtain ⟨front, back, -, -, -, hlocation⟩ := exists_tokenAt hscan
  refine ⟨Location.behind front.text, ?_⟩
  rw [parse_eq, print, Formatter.plain_eq_spelling, hscan]
  simp only [hparse, hlocation]

/-- The atoms of a program that was read can be read, and none is a marker. -/
theorem readable_of_read (h : Program.read options text = .ok q) :
    (∀ a ∈ Form.atomsAll q, a.Readable options.comments) ∧ ∀ m, .marker m ∉ Form.atomsAll q := by
  obtain ⟨raw, hparse, hexpand⟩ := read_eq_ok_iff.1 h
  refine ⟨?_, no_marker_of_expand hexpand⟩
  intro b hb
  obtain ⟨⟨-, hdangles⟩, rfl⟩ := (outcome_expand _ _ _).eq_ok_iff.1 hexpand
  rw [Form.atomsAll_appliedAll options.backquote raw hdangles] at hb
  obtain ⟨a, ha, rfl⟩ := List.mem_map.1 hb
  exact ((readable_of_parse hparse).1 a ha).applied _

/-- **A program that was read, printed in full, reads to itself as far as its depth allows.** If it
nests more deeply than the parser allows the parser fails, and if only the expander does not allow
it the expander fails; each names its limit. -/
theorem read_print_of_read (h : Program.read options text = .ok q) :
    (q.depth ≤ options.parseDepth → q.depth ≤ options.expandDepth →
      Program.read options q.print = .ok q) ∧
    (options.parseDepth < q.depth → ∃ l, Program.read options q.print =
      .error (.parse (.recursionLimitExceeded options.parseDepth (some l)))) ∧
    (q.depth ≤ options.parseDepth → options.expandDepth < q.depth →
      Program.read options q.print =
        .error (.expand (.recursionLimitExceeded options.expandDepth))) := by
  obtain ⟨hatoms, hfree⟩ := readable_of_read h
  have hexpand := expand_of_no_marker options.backquote options.expandDepth hfree
  refine ⟨?_, ?_, ?_⟩
  · intro hparseDepth hexpandDepth
    rw [if_pos hexpandDepth] at hexpand
    exact read_eq_ok_iff.2 ⟨q, parse_print_of_readable hatoms hparseDepth, hexpand⟩
  · intro hdeep
    obtain ⟨l, hparse⟩ := parse_print_tooDeep hatoms hdeep
    exact ⟨l, by rw [read_eq, hparse]⟩
  · intro hparseDepth hdeep
    rw [if_neg (Nat.not_le.2 hdeep)] at hexpand
    rw [read_eq, parse_print_of_readable hatoms hparseDepth]
    simp only [hexpand]

/-- The same text under three pairs of limits. What is read is the list of a tag and a list. -/
theorem read_print_of_read_quoted_list :
    (∃ q, Program.read { parseDepth := 2, expandDepth := 2 } "'(a)" = .ok q ∧
      Program.read { parseDepth := 2, expandDepth := 2 } q.print = .ok q) ∧
    (∃ q, Program.read { parseDepth := 1, expandDepth := 1 } "'(a)" = .ok q ∧
      ∃ l, Program.read { parseDepth := 1, expandDepth := 1 } q.print =
        .error (.parse (.recursionLimitExceeded 1 (some l)))) ∧
    ∃ q, Program.read { parseDepth := 2, expandDepth := 1 } "'(a)" = .ok q ∧
      Program.read { parseDepth := 2, expandDepth := 1 } q.print =
        .error (.expand (.recursionLimitExceeded 1)) := by
  have hroomy : Program.read { parseDepth := 2, expandDepth := 2 } "'(a)"
      = .ok [.tagged "quote" (.list [.symbol "a"])] :=
    read_eq_ok_iff.2 ⟨[.marker .quote, .list [.symbol "a"]], by with_unfolding_all rfl, rfl⟩
  have hparser : Program.read { parseDepth := 1, expandDepth := 1 } "'(a)"
      = .ok [.tagged "quote" (.list [.symbol "a"])] :=
    read_eq_ok_iff.2 ⟨[.marker .quote, .list [.symbol "a"]], by with_unfolding_all rfl, rfl⟩
  have hexpander : Program.read { parseDepth := 2, expandDepth := 1 } "'(a)"
      = .ok [.tagged "quote" (.list [.symbol "a"])] :=
    read_eq_ok_iff.2 ⟨[.marker .quote, .list [.symbol "a"]], by with_unfolding_all rfl, rfl⟩
  exact ⟨⟨_, hroomy, (read_print_of_read hroomy).1 (by decide) (by decide)⟩,
    ⟨_, hparser, (read_print_of_read hparser).2.1 (by decide)⟩,
    ⟨_, hexpander, (read_print_of_read hexpander).2.2 (by decide) (by decide)⟩⟩

/-! ## The program of some text -/

/-- **Some text parses to a program exactly if it nests no deeper than allowed, every symbol of it
is a nonempty run of characters that do not stop a word and spells no integer, and every quoted text
is one complete string literal.** -/
theorem exists_text_iff (options : Options) (p : Program) :
    (∃ text, Program.parse options text = .ok p) ↔
      p.depth ≤ options.parseDepth ∧
      (∀ name, .symbol name ∈ Form.atomsAll p → name.toList ≠ [] ∧
        (∀ c ∈ name.toList, isBlank c = false ∧ c ∉ ['(', ')', '"', '\'', '\x60', ','] ∧
          (options.comments = true → c ≠ ';')) ∧
        ¬ ∃ sign ds, name.toList = sign ++ ds ∧ (sign = [] ∨ sign = ['-']) ∧ ds ≠ [] ∧
          ∀ d ∈ ds, d.isDigit = true) ∧
      ∀ raw, .text raw ∈ Form.atomsAll p →
        ∃ body, Token.LiteralBody body ∧ raw.toList = '"' :: (body ++ ['"']) := by
  constructor
  · rintro ⟨text, hparse⟩
    obtain ⟨hatoms, hdepth⟩ := readable_of_parse hparse
    exact ⟨hdepth, fun name hname => Atom.readable_symbol_iff.1 (hatoms _ hname),
      fun raw hraw => hatoms _ hraw⟩
  · rintro ⟨hdepth, hsymbols, htexts⟩
    refine ⟨p.print, parse_print_of_readable ?_ hdepth⟩
    intro a ha
    cases a with
    | symbol name => exact Atom.readable_symbol_iff.2 (hsymbols name ha)
    | text raw => exact htexts raw ha
    | integer n | marker m => trivial

end Program

end Sexpr
