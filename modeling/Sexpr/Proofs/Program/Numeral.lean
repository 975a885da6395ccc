import Sexpr.Proofs.Form.Spelling
import Sexpr.Proofs.Program.Printing

/-!
# Integers in a text

Whether a text is read as an integer is decided by its shape, and which one by the places of its
digits; there may be any number of them, and a word has room only for some. Both ways of looking at
the text agree:

* `Parser.form_of_denotes`: a text that denotes an integer is read as this integer, or refused as
  out of range, but never as anything else;
* `Parser.form_of_not_denotes`: any other text is a symbol or quoted text, and is never refused;
* `Program.parse_print_form`: a form that is printed on its own parses to itself.

`Program.parse_integer_exact` puts them together.
-/

namespace Sexpr

/-! ## From a text to an integer -/

namespace Parser

variable {p : Parser} {x : Lexeme} {text : String}

theorem form_of_denotes {z : Int} (hx : x.token = .atom text)
    (h : Decimal.Denotes text.toList z) :
    (p.form x).val = (if Decimal.inRange z then .ok (.integer (.ofInt z))
      else .error (.numberOutOfRange text x.location), p) := by
  rw [form_atom hx, Atom.ofText?_of_denotes h]
  by_cases hrange : Decimal.inRange z = true
  · rw [if_pos hrange, if_pos hrange]
    rfl
  · rw [if_neg hrange, if_neg hrange]

theorem form_of_not_denotes (hx : x.token = .atom text)
    (h : ¬ ∃ z, Decimal.Denotes text.toList z) :
    (p.form x).val = (.ok (.symbol text), p) ∨ (p.form x).val = (.ok (.text text), p) := by
  rw [form_atom hx]
  rcases Atom.ofText?_of_not_denotes h with hsymbol | htext
  · rw [hsymbol]
    exact .inl rfl
  · rw [htext]
    exact .inr rfl

end Parser

/-! ## From an integer to a text and back -/

namespace Program

/-- The tokens of a form that is printed on its own. -/
theorem lexemes_print_form {comments : Bool} {f : Form}
    (ha : ∀ a ∈ f.atoms, a.Readable comments) :
    ∃ xs, lexemes comments f.print = .ok xs ∧ xs.map Lexeme.token = Form.flattenAll [f] := by
  have htokens : (Formatter.plain.items [] f).map Prod.snd = Form.flattenAll [f] := by
    rw [Formatter.tokens_items, Formatter.shorten_plain]
  have hl : Layout.Valid comments ⟨Formatter.plain.items [] f, []⟩ := by
    refine ⟨Formatter.gap_of_mem_items f .nil, ?_, .closed .nil, Formatter.isChain_items ha []⟩
    intro i hi
    have hmem : i.2 ∈ Form.flattenAll [f] := by
      rw [← htokens]
      exact List.mem_map_of_mem hi
    exact Form.wellFormed_of_mem_flattenAll (by simpa [Form.atomsAll] using ha) hmem
  have htext : Layout.text ⟨Formatter.plain.items [] f, []⟩ = f.print.toList := by
    rw [Form.print, Formatter.print, Formatter.plain_eq_spelling, Formatter.toList_emit]
    simp [Layout.text, Formatter.spelled, Formatter.join]
  obtain ⟨xs, hscan, hxs⟩ := lexemes_of_layout hl htext
  exact ⟨xs, hscan, hxs.trans htokens⟩

/-- A form that is printed on its own parses to itself. -/
theorem parse_print_form {options : Options} {f : Form}
    (ha : ∀ a ∈ f.atoms, a.Readable options.comments) (hd : f.depth ≤ options.parseDepth) :
    Program.parse options f.print = .ok [f] := by
  obtain ⟨xs, hscan, htokens⟩ := lexemes_print_form ha
  have hclassified : ∀ a ∈ Form.atomsAll [f], a.Classified := by
    intro a hmem
    exact (Atom.readable_iff.1 (ha a (by simpa [Form.atomsAll] using hmem))).2
  have hdepth : Program.depth [f] ≤ options.parseDepth := by
    simpa [Program.depth, Form.depthAll] using hd
  exact parse_eq_ok_iff.2 ⟨xs, hscan, ofLexemes_of_flatten hclassified hdepth htokens⟩

/-- **Integers are exact.** A text that is an optional minus sign and digits is read as the integer
it denotes if a word can hold it, whatever its length and its leading zeros, and is refused with the
text itself if not. No other text is read as an integer or refused so. Every integer that is printed
parses to itself. -/
theorem parse_integer_exact (text : String) (location : Option Location) (p : Parser)
    (options : Options) (n : Int64) :
    (∀ z, Decimal.Denotes text.toList z →
      (-2 ^ 63 ≤ z ∧ z ≤ 2 ^ 63 - 1 → ∃ m : Int64, m.toInt = z ∧
        (p.form { token := .atom text, location }).val = (.ok (.integer m), p)) ∧
      (¬ (-2 ^ 63 ≤ z ∧ z ≤ 2 ^ 63 - 1) →
        (p.form { token := .atom text, location }).val
          = (.error (.numberOutOfRange text location), p))) ∧
    ((¬ ∃ z, Decimal.Denotes text.toList z) →
      (p.form { token := .atom text, location }).val = (.ok (.symbol text), p) ∨
        (p.form { token := .atom text, location }).val = (.ok (.text text), p)) ∧
    Program.parse options (Form.integer n).print = .ok [.integer n] := by
  refine ⟨fun z hz => ⟨?_, ?_⟩, ?_, ?_⟩
  · intro hfits
    have hrange : Decimal.inRange z = true := Decimal.inRange_iff.2 hfits
    refine ⟨.ofInt z, Decimal.toInt_ofInt_of_inRange hrange, ?_⟩
    rw [Parser.form_of_denotes rfl hz, if_pos hrange]
  · intro hbeyond
    have hrange : ¬ Decimal.inRange z = true := fun h => hbeyond (Decimal.inRange_iff.1 h)
    rw [Parser.form_of_denotes rfl hz, if_neg hrange]
  · intro hother
    exact Parser.form_of_not_denotes rfl hother
  · apply parse_print_form
    · intro a ha
      rw [Form.integer, Form.atoms, List.mem_singleton] at ha
      subst ha
      trivial
    · exact Nat.zero_le _

/-- The least word may have leading zeros, one more than the greatest is out of range, and two minus
signs make no integer. -/
theorem parse_integer_exact_bounds :
    (∃ m : Int64, m.toInt = -2 ^ 63 ∧
      ((Parser.start 0 []).form { token := .atom "-009223372036854775808" }).val
        = (.ok (.integer m), Parser.start 0 [])) ∧
    ((Parser.start 0 []).form { token := .atom "9223372036854775808" }).val
      = (.error (.numberOutOfRange "9223372036854775808" none), Parser.start 0 []) ∧
    ((Parser.start 0 []).form { token := .atom "--1" }).val
      ≠ (.error (.numberOutOfRange "--1" none), Parser.start 0 []) ∧
    Program.parse {} (Form.integer Int64.minValue).print = .ok [.integer Int64.minValue] := by
  have hleast : Decimal.Denotes "-009223372036854775808".toList (-2 ^ 63) :=
    Decimal.int?_eq_some_iff.1 (by decide)
  have hbeyond : Decimal.Denotes "9223372036854775808".toList (2 ^ 63) :=
    Decimal.int?_eq_some_iff.1 (by decide)
  have hsigns : ¬ ∃ z, Decimal.Denotes "--1".toList z := by
    rw [Decimal.exists_denotes_iff]
    decide
  refine ⟨((parse_integer_exact _ _ _ {} 0).1 _ hleast).1 (by decide),
    ((parse_integer_exact _ _ _ {} 0).1 _ hbeyond).2 (by decide), ?_,
    (parse_integer_exact "" none (Parser.start 0 []) {} _).2.2⟩
  rcases (parse_integer_exact _ none (Parser.start 0 []) {} 0).2.1 hsigns with h | h
  · simp [h]
  · simp [h]

end Program

end Sexpr
