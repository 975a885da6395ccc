import Sexpr.Program.Reader
import Sexpr.Proofs.Form.Passes
import Sexpr.Proofs.Form.Written

/-!
# Reading, stage by stage

The stages of reading hand on a log, but what they make of a text does not depend on it:
`Program.parse_eq` and `Program.read_eq` give each result by the results of its stages. With that,
what can be parsed is known on both sides:

* `Program.readable_of_parse`: the atoms of a parsed program can be read, and it fits its limit;
* `Program.parse_printProgram`: such a program, printed, parses to what was printed.
-/

namespace Sexpr

theorem Parser.parseProgram_start_eq (maxDepth : Nat) (xs : List Lexeme) (log : Log) :
    (Parser.start maxDepth xs log).parseProgram.1 = Program.ofLexemes maxDepth xs :=
  (Parser.parseProgram_go_eq_run _ [] rfl).trans (Program.ofLexemes_eq_run maxDepth xs).symm

namespace Reader

theorem parse_fst (r : Reader) (text : String) : (r.parse text).1 =
    match lexemes r.options.comments text with
    | .error e => .error (.scan e)
    | .ok xs =>
      match Program.ofLexemes r.options.parseDepth xs with
      | .error e => .error (.parse e)
      | .ok p => .ok p := by
  have hscan : (Scanner.start r.options.comments text r.log).collect.1
      = lexemes r.options.comments text := by
    rw [Scanner.collect_start_eq, lexemes_eq]
  rw [parse, ← hscan]
  rcases (Scanner.start r.options.comments text r.log).collect with ⟨result, s⟩
  cases result with
  | error e => rfl
  | ok xs =>
    simp only
    rw [← Parser.parseProgram_start_eq _ _ s.log]
    rcases (Parser.start r.options.parseDepth xs s.log).parseProgram with ⟨result, p⟩
    cases result <;> rfl

theorem options_parse (r : Reader) (text : String) : (r.parse text).2.options = r.options := by
  rw [parse]
  split
  · rfl
  · split <;> rfl

theorem expand_fst (r : Reader) (p : Program) : (r.expand p).1 =
    match Program.expand r.options.backquote r.options.expandDepth p with
    | .error e => .error (.expand e)
    | .ok q => .ok q := by
  have hexpand : (r.expander.expandProgram p).1
      = Program.expand r.options.backquote r.options.expandDepth p :=
    Expander.expandProgram_log
      { backquote := r.options.backquote, maxDepth := r.options.expandDepth } r.log p
  rw [expand, ← hexpand]
  rcases r.expander.expandProgram p with ⟨result, x⟩
  cases result <;> rfl

end Reader

namespace Program

theorem parse_eq (options : Options) (text : String) : Program.parse options text =
    match lexemes options.comments text with
    | .error e => .error (.scan e)
    | .ok xs =>
      match Program.ofLexemes options.parseDepth xs with
      | .error e => .error (.parse e)
      | .ok p => .ok p := Reader.parse_fst { options } text

theorem parse_eq_ok_iff {options : Options} {text : String} {p : Program} :
    Program.parse options text = .ok p ↔
      ∃ xs, lexemes options.comments text = .ok xs ∧
        Program.ofLexemes options.parseDepth xs = .ok p := by
  rw [parse_eq]
  cases hscan : lexemes options.comments text with
  | error e => simp
  | ok xs => cases hparse : Program.ofLexemes options.parseDepth xs <;> simp [hparse]

theorem read_eq (options : Options) (text : String) : Program.read options text =
    match Program.parse options text with
    | .error e => .error e
    | .ok raw =>
      match Program.expand options.backquote options.expandDepth raw with
      | .error e => .error (.expand e)
      | .ok q => .ok q := by
  rw [Program.read, Reader.read]
  generalize hr : (Reader.record { options } (.readStarted text.utf8ByteSize)).record .entered = r
  have hoptions : r.options = options := by rw [← hr]; rfl
  have hparse : Program.parse options text = (r.parse text).1 := by
    rw [Program.parse_eq, Reader.parse_fst, hoptions]
  have hkeep := r.options_parse text
  rw [hparse]
  rcases hs : r.parse text with ⟨result, s⟩
  rw [hs] at hkeep
  cases result with
  | error e => rfl
  | ok raw =>
    have hexpand := s.expand_fst raw
    rw [show s.options = options from hkeep.trans hoptions] at hexpand
    simp only [← hexpand]
    rcases s.expand raw with ⟨result, t⟩
    cases result <;> rfl

theorem read_eq_ok_iff {options : Options} {text : String} {q : Program} :
    Program.read options text = .ok q ↔ ∃ raw, Program.parse options text = .ok raw ∧
      Program.expand options.backquote options.expandDepth raw = .ok q := by
  rw [read_eq]
  cases hparse : Program.parse options text with
  | error e => simp
  | ok raw =>
    cases hexpand : Program.expand options.backquote options.expandDepth raw <;> simp [hexpand]

/-- The atoms of a parsed program can be read, and it nests no deeper than allowed. -/
theorem readable_of_parse {options : Options} {text : String} {p : Program}
    (h : Program.parse options text = .ok p) :
    (∀ a ∈ Form.atomsAll p, a.Readable options.comments) ∧ p.depth ≤ options.parseDepth := by
  obtain ⟨xs, hscan, hparse⟩ := parse_eq_ok_iff.1 h
  obtain ⟨l, hl, htokens, -⟩ := exists_layout_of_lexemes hscan
  obtain ⟨hclassified, hdepth, hflat⟩ := Program.flatten_of_ofLexemes hparse
  refine ⟨?_, hdepth⟩
  intro a ha
  refine Atom.readable_iff.2 ⟨?_, hclassified a ha⟩
  have hmem := Form.token_mem_flattenAll ha
  rw [hflat] at hmem
  obtain ⟨x, hx, heq⟩ := List.mem_map.1 hmem
  have hxl : x.token ∈ l.tokens := htokens ▸ List.mem_map_of_mem hx
  obtain ⟨i, hi, hix⟩ := List.mem_map.1 hxl
  rw [← heq, ← hix]
  exact (hl.token i hi).canonical

/-- A program with atoms that can be read is printed with the tokens of what is printed. -/
theorem lexemes_printProgram (abbreviation : String → Option Marker) {comments : Bool}
    {p : Program} (ha : ∀ a ∈ Form.atomsAll p, a.Readable comments) :
    (∃ xs, lexemes comments ((Formatter.spelling abbreviation).printProgram p) = .ok xs ∧
      xs.map Lexeme.token = Form.flattenAll ((Formatter.spelling abbreviation).shortenAll p)) ∧
    ∀ a ∈ Form.atomsAll ((Formatter.spelling abbreviation).shortenAll p), a.Classified := by
  have hl : ((Formatter.spelling abbreviation).layout [] p).Valid comments :=
    Formatter.valid_layout .nil ha
  obtain ⟨xs, hscan, htokens⟩ :=
    lexemes_of_layout hl (Formatter.toList_printProgram abbreviation p).symm
  rw [Formatter.tokens_layout] at htokens
  have hshort : ∀ a ∈ Form.atomsAll ((Formatter.spelling abbreviation).shortenAll p),
      a.Readable comments := Formatter.readable_of_mem_shortenAll ha
  exact ⟨⟨xs, hscan, htokens⟩, fun a h => (Atom.readable_iff.1 (hshort a h)).2⟩

/-- What is printed parses to the forms that are printed, if they nest no deeper than allowed. -/
theorem parse_printProgram {options : Options} {p : Program}
    {abbreviation : String → Option Marker}
    (ha : ∀ a ∈ Form.atomsAll p, a.Readable options.comments)
    (hd : Program.depth ((Formatter.spelling abbreviation).shortenAll p) ≤ options.parseDepth) :
    Program.parse options ((Formatter.spelling abbreviation).printProgram p)
      = .ok ((Formatter.spelling abbreviation).shortenAll p) := by
  obtain ⟨⟨xs, hscan, htokens⟩, hclassified⟩ := lexemes_printProgram abbreviation ha
  exact parse_eq_ok_iff.2 ⟨xs, hscan, Program.ofLexemes_of_flatten hclassified hd htokens⟩

end Program

/-- An atom that stands in some text, if comments are treated like this. -/
def Atom.Produced (comments : Bool) (a : Atom) : Prop :=
  ∃ options text p, options.comments = comments ∧ Program.parse options text = .ok p ∧
    a ∈ Form.atomsAll p

theorem Atom.readable_of_produced {comments : Bool} {a : Atom} (h : a.Produced comments) :
    a.Readable comments := by
  obtain ⟨options, text, p, rfl, hparse, ha⟩ := h
  exact (Program.readable_of_parse hparse).1 a ha

end Sexpr
