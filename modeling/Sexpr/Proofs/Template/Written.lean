import Sexpr.Form.Shape
import Sexpr.Proofs.Template.Grammar
import Sexpr.Proofs.Template.Value

/-!
# Writing forms down in a host program

Every form without markers can be written with host tokens: an integer as its decimal literal behind
a minus sign if there has to be one, a symbol in double quotes behind `#`, quoted text as it is, and
a list as a group in parentheses. None of these elements depends on what stands behind it, so they
can stand in any order.

* `Template.parse_hostTokens`: a template that is written parses as itself;
* `Form.form?_of_template?`: the template of a form stands for the form;
* `Form.parse_hostTokens_of_form`: **what is written for a form parses, and its code builds the
  form**.
-/

namespace Sexpr

namespace Template

/-! ## Writing a template -/

/-- The tokens of an integer: the literal of its absolute value, with a minus sign in front of a
negative one. -/
def numeral (n : Int64) : List HostToken :=
  let literal := .literal (Decimal.ofNat n.toInt.natAbs)
  if n.toInt < 0 then [.punct '-' .alone, literal] else [literal]

/-- The literal with a name between double quotes, as it is. -/
def quoted (name : String) : HostToken := .literal (String.ofList ('"' :: name.toList ++ ['"']))

mutual

/-- The tokens that a template is written with. -/
def hostTokens : Template → List HostToken
  | .integer n => numeral n
  | .symbol name => [.punct '#' .alone, quoted name]
  | .text raw => [.literal raw]
  | .unquoted t => [.punct ',' .alone, t]
  | .list ts => [.group .parenthesis (hostTokensAll ts)]

/-- The tokens that a sequence of templates is written with. -/
def hostTokensAll : List Template → List HostToken
  | [] => []
  | t :: ts => t.hostTokens ++ hostTokensAll ts

end

mutual

/-- The texts in a template from left to right. -/
def texts : Template → List String
  | .text raw => [raw]
  | .list ts => textsAll ts
  | .integer _ | .symbol _ | .unquoted _ => []

/-- The texts in a sequence of templates from left to right. -/
def textsAll : List Template → List String
  | [] => []
  | t :: ts => t.texts ++ textsAll ts

end

/-- A decimal literal has no underscores. -/
theorem numerals_ofNat (m : Nat) : numerals (Decimal.ofNat m) = Decimal.digits m := by
  rw [numerals, Decimal.ofNat, String.toList_ofList, List.filter_eq_self]
  intro c hc
  have hdigit := Decimal.isDigit_of_mem_digits hc
  simp only [bne_iff_ne]
  rintro rfl
  cases hdigit

/-- Which element the tokens of an integer are does not depend on what stands behind them. -/
theorem leaf_numeral (n : Int64) (next : Option HostToken) :
    Leaf (numeral n) next (.integer n) := by
  have hdenotes := Decimal.int?_eq_some_iff.1 (Decimal.int?_spell n.toInt)
  unfold Decimal.spell at hdenotes
  unfold numeral
  by_cases hn : n.toInt < 0
  · rw [if_pos hn] at hdenotes ⊢
    exact .negative (by rwa [numerals_ofNat])
  · rw [if_neg hn] at hdenotes ⊢
    refine .integer ?_ (by rwa [numerals_ofNat])
    obtain ⟨d, ds, hds⟩ := List.exists_cons_of_ne_nil (Decimal.digits_ne_nil n.toInt.natAbs)
    refine ⟨d, by simp [Decimal.ofNat, hds], ?_⟩
    exact Decimal.isDigit_of_mem_digits (hds ▸ List.mem_cons_self)

mutual

/-- A template that is written in front of segments is one more segment. -/
theorem segments_hostTokens (t : Template) (htexts : ∀ raw ∈ t.texts, raw.toList.head? = some '"')
    {segments : List (List HostToken)} {ts : List Template} (hs : Segments segments ts) :
    Segments (t.hostTokens :: segments) (t :: ts) :=
  match t with
  | .integer n => .leaf (leaf_numeral n _) hs
  | .symbol name => .leaf (.quoted (by simp)) hs
  | .text raw => .leaf (.text (htexts raw (by simp [texts]))) hs
  | .unquoted t => .leaf (.unquoted t) hs
  | .list ts => by
    obtain ⟨inner, heq, h⟩ := exists_segments_hostTokensAll ts htexts
    rw [hostTokens, ← heq]
    exact .list h hs

theorem exists_segments_hostTokensAll (ts : List Template)
    (htexts : ∀ raw ∈ textsAll ts, raw.toList.head? = some '"') :
    ∃ segments, segments.flatten = hostTokensAll ts ∧ Segments segments ts :=
  match ts with
  | [] => ⟨[], rfl, .nil⟩
  | t :: ts => by
    rw [textsAll, List.forall_mem_append] at htexts
    obtain ⟨segments, heq, hs⟩ := exists_segments_hostTokensAll ts htexts.2
    exact ⟨t.hostTokens :: segments, by rw [List.flatten_cons, heq, hostTokensAll],
      segments_hostTokens t htexts.1 hs⟩

end

/-- **A template that is written parses as itself**, if its texts are in quotes. -/
theorem parse_hostTokens (t : Template) (htexts : ∀ raw ∈ t.texts, raw.toList.head? = some '"') :
    parse t.hostTokens = .ok t :=
  parse_eq_ok_iff_first.2 (first_nil_iff.2 (segments_hostTokens t htexts .nil))

end Template

namespace Form

/-! ## The template of a form -/

mutual

/-- The template with the constructors and contents of a form, which has none for a marker. -/
def template? : Form → Option Template
  | .atom (.integer n) => some (.integer n)
  | .atom (.symbol name) => some (.symbol name)
  | .atom (.text raw) => some (.text raw)
  | .atom (.marker _) => none
  | .list es => (templates? es).map .list

/-- The templates of a sequence of forms. -/
def templates? : List Form → Option (List Template)
  | [] => some []
  | e :: es => (template? e).bind fun t => (templates? es).map (t :: ·)

end

theorem templates?_cons_eq_some {e : Form} {es : List Form} {us : List Template}
    (h : templates? (e :: es) = some us) :
    ∃ t ts, us = t :: ts ∧ template? e = some t ∧ templates? es = some ts := by
  rw [templates?, Option.bind_eq_some_iff] at h
  obtain ⟨t, ht, h⟩ := h
  obtain ⟨ts, hts, rfl⟩ := Option.map_eq_some_iff.1 h
  exact ⟨t, ts, rfl, ht, hts⟩

mutual

/-- A form without markers has a template. -/
theorem exists_template (f : Form) (hfree : ∀ m, .marker m ∉ f.atoms) :
    ∃ t, f.template? = some t :=
  match f with
  | .atom (.integer n) => ⟨.integer n, rfl⟩
  | .atom (.symbol name) => ⟨.symbol name, rfl⟩
  | .atom (.text raw) => ⟨.text raw, rfl⟩
  | .atom (.marker m) => absurd (by simp [atoms]) (hfree m)
  | .list es => by
    obtain ⟨ts, hts⟩ := exists_templates es hfree
    exact ⟨.list ts, by rw [template?, hts]; rfl⟩

theorem exists_templates (es : List Form) (hfree : ∀ m, .marker m ∉ atomsAll es) :
    ∃ ts, templates? es = some ts :=
  match es with
  | [] => ⟨[], rfl⟩
  | e :: es => by
    simp only [atomsAll, List.mem_append, not_or] at hfree
    obtain ⟨t, ht⟩ := exists_template e fun m => (hfree m).1
    obtain ⟨ts, hts⟩ := exists_templates es fun m => (hfree m).2
    exact ⟨t :: ts, by rw [templates?, ht, hts]; rfl⟩

end

mutual

/-- The template of a form stands for the form. -/
theorem form?_of_template? (host : Host) {f : Form} {t : Template} (h : f.template? = some t) :
    host.form? t = some f :=
  match f with
  | .atom (.integer n) => by cases h; rfl
  | .atom (.symbol name) => by cases h; rfl
  | .atom (.text raw) => by cases h; rfl
  | .atom (.marker m) => nomatch h
  | .list es => by
    obtain ⟨ts, hts, rfl⟩ := Option.map_eq_some_iff.1 h
    rw [Host.form?, forms?_of_templates? host hts]
    rfl

theorem forms?_of_templates? (host : Host) {es : List Form} {us : List Template}
    (h : templates? es = some us) : host.forms? us = some es :=
  match es with
  | [] => by cases h; rfl
  | e :: es => by
    obtain ⟨t, ts, rfl, ht, hts⟩ := templates?_cons_eq_some h
    rw [Host.forms?, form?_of_template? host ht, forms?_of_templates? host hts]
    rfl

end

mutual

/-- The texts in the template of a form are atoms of the form. -/
theorem mem_atoms_of_template? {f : Form} {t : Template} (h : f.template? = some t) {raw : String}
    (hraw : raw ∈ t.texts) : .text raw ∈ f.atoms :=
  match f with
  | .atom (.integer n) => by cases h; cases hraw
  | .atom (.symbol name) => by cases h; cases hraw
  | .atom (.text raw') => by
    cases h
    rw [Template.texts, List.mem_singleton] at hraw
    rw [atoms, hraw, List.mem_singleton]
  | .atom (.marker m) => nomatch h
  | .list es => by
    obtain ⟨ts, hts, rfl⟩ := Option.map_eq_some_iff.1 h
    exact mem_atomsAll_of_templates? hts hraw

theorem mem_atomsAll_of_templates? {es : List Form} {us : List Template}
    (h : templates? es = some us) {raw : String} (hraw : raw ∈ Template.textsAll us) :
    .text raw ∈ atomsAll es :=
  match es with
  | [] => by cases h; cases hraw
  | e :: es => by
    obtain ⟨t, ts, rfl, ht, hts⟩ := templates?_cons_eq_some h
    rw [Template.textsAll, List.mem_append] at hraw
    rw [atomsAll, List.mem_append]
    exact hraw.imp (mem_atoms_of_template? ht) (mem_atomsAll_of_templates? hts)

end

/-- **Every form without markers can be written down as a template**, as long as its texts are in
quotes: what is written parses as the template of the form, and the code of the template builds the
form again. -/
theorem parse_hostTokens_of_form (f : Form) (hfree : ∀ m, .marker m ∉ f.atoms)
    (htexts : ∀ raw, .text raw ∈ f.atoms → raw.toList.head? = some '"') :
    ∃ t, f.template? = some t ∧ Template.parse t.hostTokens = .ok t ∧
      ∀ host : Host, host.value? (t.codeWith host.spell) = some f := by
  obtain ⟨t, ht⟩ := exists_template f hfree
  refine ⟨t, ht, Template.parse_hostTokens t fun raw hraw => ?_, fun host => ?_⟩
  · exact htexts raw (mem_atoms_of_template? ht hraw)
  · rw [host.value?_codeWith, form?_of_template? host ht]

/-- The least word in front of the minus sign as a symbol, and that in front of an integer. -/
theorem parse_hostTokens_of_form_least :
    let t : Template := .list [.integer Int64.minValue, .symbol "-", .integer 7,
      .list [.text "\"a\""]]
    Template.parse [.group .parenthesis [.punct '-' .alone, .literal "9223372036854775808",
      .punct '#' .alone, .literal "\"-\"", .literal "7",
      .group .parenthesis [.literal "\"a\""]]] = .ok t ∧
    (Host.printable fun _ => none).value? t.code =
      some (.list [.integer Int64.minValue, .symbol "-", .integer 7, .list [.text "\"a\""]]) := by
  obtain ⟨t, ht, hparse, hvalue⟩ := parse_hostTokens_of_form
    (.list [.integer Int64.minValue, .symbol "-", .integer 7, .list [.text "\"a\""]])
    (by simp [integer, symbol, text, atoms, atomsAll])
    (by simp [integer, symbol, text, atoms, atomsAll])
  cases ht
  have hleast : Decimal.ofNat 9223372036854775808 = "9223372036854775808" := by decide +kernel
  have hseven : Decimal.ofNat 7 = "7" := by decide +kernel
  refine ⟨?_, hvalue _⟩
  simpa [Template.hostTokens, Template.hostTokensAll, Template.numeral, Template.quoted, hleast,
    hseven] using hparse

end Form

end Sexpr
