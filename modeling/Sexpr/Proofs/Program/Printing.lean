import Sexpr.Proofs.Form.Applied
import Sexpr.Proofs.Program.Reading

/-!
# What is printed reads back

A parsed program, printed in full, parses to itself (`Program.parse_print`). A program printed with
abbreviations reads to what it expands to (`Program.read_print_abbreviating`): abbreviating is
undone by applying the markers it brings in (`Formatter.appliedAll_shortenAll`), and since every
list and every run of markers of the abbreviated program becomes nesting of the expanded one, a
limit that the expanded program keeps to is kept to on the way.
-/

namespace Sexpr

/-! ## In full -/

namespace Formatter

theorem shortened?_plain (es : List Form) : plain.shortened? es = none := by
  cases h : plain.shortened? es with
  | none => rfl
  | some short =>
    obtain ⟨tag, -, hnone, -⟩ := shortened?_eq_some h
    cases hnone

theorem shortenAll_of_shorten {fmt : Formatter} {es : List Form}
    (h : ∀ e ∈ es, fmt.shorten e = [e]) : fmt.shortenAll es = es := by
  induction es with
  | nil => rfl
  | cons e es ih =>
    rw [shortenAll, h e List.mem_cons_self, ih fun f hf => h f (List.mem_cons_of_mem _ hf)]
    rfl

theorem shorten_plain (f : Form) : plain.shorten f = [f] := by
  induction f using Form.induction with
  | atom a => rfl
  | list es ih => rw [shorten_full (shortened?_plain es), shortenAll_of_shorten ih]

theorem shortenAll_plain (p : Program) : plain.shortenAll p = p :=
  shortenAll_of_shorten fun f _ => shorten_plain f

end Formatter

theorem Program.parse_print_of_readable {options : Options} {p : Program}
    (ha : ∀ a ∈ Form.atomsAll p, a.Readable options.comments)
    (hd : p.depth ≤ options.parseDepth) : Program.parse options p.print = .ok p := by
  have hself : (Formatter.spelling fun _ => none).shortenAll p = p := Formatter.shortenAll_plain p
  have hfits : Program.depth ((Formatter.spelling fun _ => none).shortenAll p)
      ≤ options.parseDepth := by rwa [hself]
  rw [Program.print, Formatter.plain_eq_spelling, Program.parse_printProgram ha hfits, hself]

/-- **A parsed program, printed, parses to itself.** -/
theorem Program.parse_print {options : Options} {text : String} {p : Program}
    (h : Program.parse options text = .ok p) : Program.parse options p.print = .ok p := by
  obtain ⟨hatoms, hdepth⟩ := Program.readable_of_parse h
  exact Program.parse_print_of_readable hatoms hdepth

theorem Program.parse_print_separators :
    ∃ p, Program.parse { comments := true, parseDepth := 2 }
        "(a# 'x) , @y ; kept apart\n\"q\\\"\"(-007 ())" = .ok p ∧
      Program.parse { comments := true, parseDepth := 2 } p.print = .ok p := by
  have h : Program.parse { comments := true, parseDepth := 2 }
      "(a# 'x) , @y ; kept apart\n\"q\\\"\"(-007 ())" = .ok
        [.list [.symbol "a#", .marker .quote, .symbol "x"], .marker .unquote, .symbol "@y",
          .text "\"q\\\"\"", .list [.integer (-7), .list []]] := by
    with_unfolding_all rfl
  exact ⟨_, h, Program.parse_print h⟩

/-! ## With abbreviations -/

theorem Marker.tagWith_of_ofTag? {backquote : BackquoteTag} {tag : String} {m : Marker}
    (h : ofTag? tag = some m) (hb : backquote = .quasiquote ∨ tag ≠ "quasiquote") :
    m.tagWith backquote = tag := by
  unfold ofTag? at h
  split_ifs at h with hquote hquasiquote hunquote hsplicing hfunction <;> cases h
  · rw [hquote]
    cases backquote <;> rfl
  · rcases hb with rfl | hne
    · exact hquasiquote.symm
    · exact absurd hquasiquote hne
  · rw [hunquote]
    cases backquote <;> rfl
  · rw [hsplicing]
    cases backquote <;> rfl
  · rw [hfunction]
    cases backquote <;> rfl

namespace Formatter

/-- Every abbreviation stands for the tag it replaces, as far as the tag is one of these atoms. -/
def Faithful (fmt : Formatter) (backquote : BackquoteTag) (as : List Atom) : Prop :=
  ∀ tag m, .symbol tag ∈ as → fmt.abbreviation tag = some m → m.tagWith backquote = tag

variable {fmt : Formatter} {backquote : BackquoteTag}

theorem appliedAll_shortenAll_of_append {es : List Form}
    (ih : ∀ e ∈ es, ∀ rest, Form.appliedAll backquote (fmt.shorten e ++ rest)
      = Form.applyOnto backquote (e.applied backquote) (Form.appliedAll backquote rest)) :
    Form.appliedAll backquote (fmt.shortenAll es) = Form.appliedAll backquote es := by
  induction es with
  | nil => rfl
  | cons e es hes =>
    rw [shortenAll, ih e List.mem_cons_self, hes fun f hf => ih f (List.mem_cons_of_mem _ hf),
      Form.appliedAll]

/-- What is written for a form is applied to give the form, wherever it stands. -/
theorem appliedAll_shorten_append {f : Form} (hf : fmt.Faithful backquote f.atoms)
    (rest : List Form) : Form.appliedAll backquote (fmt.shorten f ++ rest)
      = Form.applyOnto backquote (f.applied backquote) (Form.appliedAll backquote rest) := by
  induction f using Formatter.induction fmt generalizing rest with
  | atom a => rfl
  | short es m operand h ih =>
    obtain ⟨tag, rfl, htag, hoperand⟩ := shortened?_eq_some h
    have hm : m.tagWith backquote = tag :=
      hf tag m (by simp [Form.atoms, Form.atomsAll, Form.symbol]) htag
    have hop : fmt.Faithful backquote operand.atoms :=
      fun t n ht => hf t n (by simp [Form.atoms, Form.atomsAll, ht])
    have hnot : (operand.applied backquote).isMarker = false := by simpa using hoperand
    rw [shorten_short h, List.cons_append, Form.appliedAll, ih hop,
      Form.applyOnto_of_not_marker hnot]
    have happlied : (Form.list [.symbol tag, operand]).applied backquote
        = .tagged tag (operand.applied backquote) := by
      rw [Form.applied, Form.appliedAll, Form.appliedAll, Form.applyOnto_of_not_marker hnot]
      rfl
    rw [happlied, ← hm]
    rfl
  | full es h ih =>
    have hes := appliedAll_shortenAll_of_append fun e he rest =>
      ih e he (fun t n ht => hf t n (Form.mem_atomsAll.2 ⟨e, he, ht⟩)) rest
    rw [shorten_full h, List.singleton_append, Form.appliedAll, Form.applied, Form.applied, hes]

/-- Applying the markers undoes the abbreviations. -/
theorem appliedAll_shortenAll {p : Program} (hp : fmt.Faithful backquote (Form.atomsAll p)) :
    Form.appliedAll backquote (fmt.shortenAll p) = Form.appliedAll backquote p :=
  appliedAll_shortenAll_of_append fun f hf =>
    appliedAll_shorten_append fun t n ht => hp t n (Form.mem_atomsAll.2 ⟨f, hf, ht⟩)

theorem faithful_abbreviating {as : List Atom}
    (h : backquote = .quasiquote ∨ .symbol "quasiquote" ∉ as) :
    abbreviating.Faithful backquote as := by
  intro tag m htag hm
  refine Marker.tagWith_of_ofTag? hm (h.imp_right ?_)
  rintro hno rfl
  exact hno htag

end Formatter

theorem Atom.readable_tagWith (comments : Bool) (backquote : BackquoteTag) (m : Marker) :
    (Atom.symbol (m.tagWith backquote)).Readable comments := by
  refine ⟨?_, ?_⟩
  · cases m <;> cases backquote <;> cases comments <;> decide
  · cases m <;> cases backquote <;> decide

theorem Atom.Readable.applied {comments : Bool} {a : Atom} (h : a.Readable comments)
    (backquote : BackquoteTag) : (a.applied backquote).Readable comments := by
  cases a with
  | marker m => exact Atom.readable_tagWith comments backquote m
  | integer n | symbol name | text raw => exact h

theorem Atom.eq_of_applied_eq_quasiquote {a : Atom}
    (h : a.applied .quote = .symbol "quasiquote") : a = .symbol "quasiquote" := by
  cases a with
  | marker m => cases m <;> exact absurd h (by decide)
  | integer n | symbol name | text raw => exact h

namespace Program

/-- Only what comes out of a program has to keep to the limits for its abbreviated text to be
read. -/
theorem read_printProgram_abbreviating {options : Options} {raw q : Program}
    (ha : ∀ a ∈ Form.atomsAll raw, a.Readable options.comments)
    (hb : options.backquote = .quasiquote ∨ .symbol "quasiquote" ∉ Form.atomsAll raw)
    (hq : Form.appliedAll options.backquote raw = q) (hfree : ∀ m, .marker m ∉ Form.atomsAll q)
    (hparse : q.depth ≤ options.parseDepth) (hexpand : q.depth ≤ options.expandDepth) :
    Program.read options (Formatter.abbreviating.printProgram raw) = .ok q := by
  have hsame : Form.appliedAll options.backquote (Formatter.abbreviating.shortenAll raw) = q :=
    (Formatter.appliedAll_shortenAll (Formatter.faithful_abbreviating hb)).trans hq
  have hdangles : ∀ m, ¬ Dangles (Formatter.abbreviating.shortenAll raw) m := by
    rw [forall_not_dangles_iff options.backquote, hsame]
    exact hfree
  have hdepth : depth (Formatter.abbreviating.shortenAll raw) ≤ q.depth := by
    rw [← hsame]
    exact Form.depthAll_le_depthAll_applied _ _
  have hdeep : ¬ TooDeep options.expandDepth (Formatter.abbreviating.shortenAll raw) := by
    intro h
    have hlt := h.lt_depth hdangles options.backquote
    rw [hsame] at hlt
    exact absurd hexpand (Nat.not_le.2 hlt)
  have hfits := Nat.le_trans hdepth hparse
  refine read_eq_ok_iff.2 ⟨Formatter.abbreviating.shortenAll raw, ?_, ?_⟩
  · rw [Formatter.abbreviating_eq_spelling] at hfits ⊢
    exact parse_printProgram ha hfits
  · exact (outcome_expand _ _ _).eq_ok_iff.2 ⟨⟨hdeep, hdangles⟩, hsame.symm⟩

/-- **A program printed with abbreviations reads to its expansion**, provided that the expansion
keeps to both limits on nesting and that a backquote has a tag of its own or that tag does not
occur; and so does the expansion itself. -/
theorem read_print_abbreviating {options : Options} {raw q : Program}
    (hatoms : ∀ a ∈ Form.atomsAll raw, a.Produced options.comments)
    (hbackquote : options.backquote = .quasiquote ∨
      Atom.symbol "quasiquote" ∉ Form.atomsAll raw)
    (hexpand : Program.expand options.backquote options.expandDepth raw = .ok q)
    (hparseDepth : q.depth ≤ options.parseDepth) (hexpandDepth : q.depth ≤ options.expandDepth) :
    Program.read options (Formatter.abbreviating.printProgram raw) = .ok q ∧
      Program.read options (Formatter.abbreviating.printProgram q) = .ok q := by
  obtain ⟨⟨-, hdangles⟩, hq⟩ := (outcome_expand _ _ _).eq_ok_iff.1 hexpand
  have hread : ∀ a ∈ Form.atomsAll raw, a.Readable options.comments :=
    fun a h => Atom.readable_of_produced (hatoms a h)
  have hfree : ∀ m, .marker m ∉ Form.atomsAll q := by
    rw [hq]
    exact (forall_not_dangles_iff options.backquote raw).1 hdangles
  have hmem : ∀ b ∈ Form.atomsAll q,
      ∃ a ∈ Form.atomsAll raw, a.applied options.backquote = b := by
    intro b hb
    rw [hq, Form.atomsAll_appliedAll options.backquote raw hdangles] at hb
    exact List.mem_map.1 hb
  refine ⟨read_printProgram_abbreviating hread hbackquote hq.symm hfree hparseDepth hexpandDepth,
    read_printProgram_abbreviating ?_ ?_ (Form.appliedAll_eq_self _ q hfree) hfree hparseDepth
      hexpandDepth⟩
  · intro b hb
    obtain ⟨a, ha, rfl⟩ := hmem b hb
    exact (hread a ha).applied _
  · cases htag : options.backquote with
    | quasiquote => exact .inl rfl
    | quote =>
      refine .inr fun hb => ?_
      obtain ⟨a, ha, heq⟩ := hmem _ hb
      rw [htag] at heq hbackquote
      rw [Atom.eq_of_applied_eq_quasiquote heq] at ha
      exact hbackquote.elim nofun (· ha)

theorem read_print_abbreviating_nested :
    ∃ raw q, Program.parse { parseDepth := 4, expandDepth := 4 }
        "\x60(a ,@b (quote 'c) , @d)" = .ok raw ∧
      Program.expand .quote 4 raw = .ok q ∧
      Program.read { parseDepth := 4, expandDepth := 4 } (Formatter.abbreviating.printProgram raw)
        = .ok q ∧
      Program.read { parseDepth := 4, expandDepth := 4 } (Formatter.abbreviating.printProgram q)
        = .ok q := by
  have hparse : Program.parse { parseDepth := 4, expandDepth := 4 } "\x60(a ,@b (quote 'c) , @d)"
      = .ok [.marker .quasiquote, .list [.symbol "a", .marker .unquoteSplicing, .symbol "b",
        .list [.symbol "quote", .marker .quote, .symbol "c"], .marker .unquote, .symbol "@d"]] := by
    with_unfolding_all rfl
  have hexpand : Program.expand .quote 4
      [.marker .quasiquote, .list [.symbol "a", .marker .unquoteSplicing, .symbol "b",
        .list [.symbol "quote", .marker .quote, .symbol "c"], .marker .unquote, .symbol "@d"]]
      = .ok [.tagged "quote" (.list [.symbol "a", .tagged "unquote-splicing" (.symbol "b"),
        .tagged "quote" (.tagged "quote" (.symbol "c")), .tagged "unquote" (.symbol "@d")])] := rfl
  exact ⟨_, _, hparse, hexpand, read_print_abbreviating
    (fun a ha => ⟨_, _, _, rfl, hparse, ha⟩) (.inr (by decide)) hexpand (by decide) (by decide)⟩

end Program

end Sexpr
