import Sexpr.Proofs.Form.Flatten
import Sexpr.Proofs.Token.Grammar

/-!
# Atoms that can be read

An atom is written with a token. It can be read back if the scanner can find that token and the
token denotes the atom; `Atom.readable_iff` says which atoms these are. Integers and markers always
are, and so is whatever a well-formed token denotes.
-/

namespace Sexpr

/-- An atom that the reader can produce: a symbol is a word that spells no integer, and quoted text
is one string literal. -/
def Atom.Readable (comments : Bool) : Atom → Prop
  | .symbol name => Token.IsWord comments name.toList ∧ Decimal.isInteger name.toList = false
  | .text raw => Token.IsLiteral raw.toList
  | _ => True

namespace Token

variable {comments : Bool}

theorem stopsWord_of_isDigit {c : Char} (h : c.isDigit = true) : stopsWord comments c = false := by
  obtain ⟨hlo, hhi⟩ := Char.isDigit_iff_toNat.1 h
  have h0 : 48 ≤ c.toNat := hlo
  have h9 : c.toNat ≤ 57 := hhi
  have hblank : isBlank c = false := by
    simp only [isBlank, blankRanges, List.any_cons, List.any_nil, Bool.or_false,
      Bool.or_eq_false_iff, Bool.and_eq_false_iff, decide_eq_false_iff_not]
    omega
  have hne : ∀ d : Char, (d.toNat < 48 ∨ 57 < d.toNat) → c ≠ d := by
    rintro d hd rfl
    omega
  simp [stopsWord, hblank, hne]

theorem isWord_spell (z : Int) : IsWord comments (Decimal.spell z) := by
  have hdigits : ∀ c ∈ Decimal.digits z.natAbs, stopsWord comments c = false :=
    fun c hc => stopsWord_of_isDigit (Decimal.isDigit_of_mem_digits hc)
  rw [Decimal.spell]
  split
  · refine ⟨by simp, ?_⟩
    intro c hc
    rcases List.mem_cons.1 hc with rfl | hc
    · cases comments <;> decide
    · exact hdigits c hc
  · exact ⟨Decimal.digits_ne_nil _, hdigits⟩

theorem isWord_ofInt64 (n : Int64) : IsWord comments (Decimal.ofInt64 n).toList := by
  rw [Decimal.ofInt64, String.toList_ofList]
  exact isWord_spell n.toInt

theorem IsLiteral.kind {text : String} (h : IsLiteral text.toList) : AtomKind.of text = .text := by
  obtain ⟨body, -, heq⟩ := h
  have hnum : Decimal.isInteger text.toList = false := by
    simp [heq, Decimal.isInteger, Decimal.unsigned, Decimal.isNatural]
  have hquoted : AtomKind.isQuoted text.toList = true := by
    simp [heq, AtomKind.isQuoted]
  simp [AtomKind.of, hnum, hquoted]

theorem IsWord.kind {text : String} (h : IsWord comments text.toList) :
    AtomKind.of text = if Decimal.isInteger text.toList then .integer else .symbol := by
  have hquoted : AtomKind.isQuoted text.toList = false := by
    unfold AtomKind.isQuoted
    split
    · rename_i cs heq
      have hquote := h.2 '"' (by simp [heq])
      simp [stopsWord] at hquote
    · rfl
  simp [AtomKind.of, hquoted]

end Token

namespace Atom

variable {comments : Bool} {a : Atom}

/-- An atom can be read exactly if its token can be found and denotes the atom. -/
theorem readable_iff : a.Readable comments ↔ a.token.WellFormed comments ∧ a.Classified := by
  cases a with
  | integer n => exact ⟨fun _ => ⟨.inr (Token.isWord_ofInt64 n), trivial⟩, fun _ => trivial⟩
  | marker m => exact ⟨fun _ => ⟨trivial, trivial⟩, fun _ => trivial⟩
  | text raw =>
    refine ⟨fun h => ⟨.inl h, Token.IsLiteral.kind h⟩, ?_⟩
    rintro ⟨hlit | hword, hkind⟩
    · exact hlit
    · have hk := hword.kind.symm.trans hkind
      split at hk <;> cases hk
  | symbol name =>
    constructor
    · rintro ⟨hword, hnum⟩
      exact ⟨.inr hword, by simp [Classified, hword.kind, hnum]⟩
    · rintro ⟨hlit | hword, hkind⟩
      · cases hlit.kind.symm.trans hkind
      · refine ⟨hword, ?_⟩
        have hk := hword.kind.symm.trans hkind
        split at hk
        · cases hk
        · simp_all

/-- A symbol can be read exactly if it has characters, none of them stops a word, and together they
spell no integer. -/
theorem readable_symbol_iff {name : String} : (symbol name).Readable comments ↔
    name.toList ≠ [] ∧
    (∀ c ∈ name.toList, isBlank c = false ∧ c ∉ ['(', ')', '"', '\'', '\x60', ','] ∧
      (comments = true → c ≠ ';')) ∧
    ¬ ∃ sign ds, name.toList = sign ++ ds ∧ (sign = [] ∨ sign = ['-']) ∧ ds ≠ [] ∧
      ∀ d ∈ ds, d.isDigit = true := by
  rw [Readable, Token.IsWord, ← Decimal.isInteger_iff, Bool.not_eq_true, and_assoc]
  refine and_congr_right fun _ => and_congr_left fun _ => forall₂_congr fun c _ => ?_
  simp [Token.stopsWord, and_assoc]

end Atom

theorem Token.WellFormed.canonical {comments : Bool} {t : Token} (h : t.WellFormed comments) :
    t.canonical.WellFormed comments := by
  cases t with
  | opening | closing | marker m => exact h
  | atom text =>
    by_cases hdenotes : ∃ z, Decimal.Denotes text.toList z
    · obtain ⟨z, hz⟩ := hdenotes
      refine .inr ?_
      rw [String.toList_ofList, ← Decimal.spell_eq_canonical hz]
      exact Token.isWord_spell z
    · rw [Token.canonical, Decimal.canonical_eq_self hdenotes, String.ofList_toList]
      exact h

namespace Form

theorem asSymbol?_eq_some {f : Form} {name : String} :
    f.asSymbol? = some name ↔ f = .symbol name := by
  cases f with
  | atom a => cases a <;> simp [asSymbol?, symbol]
  | list es => simp [asSymbol?, symbol]

/-- Whether a token is a parenthesis. -/
def isParenthesis (t : Token) : Bool := t == .opening || t == .closing

mutual

/-- The tokens of a form other than parentheses are those of its atoms, in order. -/
theorem filter_flatten : ∀ f : Form,
    f.flatten.filter (fun t => !isParenthesis t) = f.atoms.map Atom.token
  | .atom a => by cases a <;> rfl
  | .list es => by
    simp only [flatten, atoms, List.filter_cons, List.filter_append, filter_flattenAll es]
    simp [isParenthesis]

theorem filter_flattenAll : ∀ es : List Form,
    (flattenAll es).filter (fun t => !isParenthesis t) = (atomsAll es).map Atom.token
  | [] => rfl
  | e :: es => by
    simp only [flattenAll, atomsAll, List.filter_append, List.map_append, filter_flatten e,
      filter_flattenAll es]

end

theorem token_mem_flattenAll {a : Atom} {es : List Form} (h : a ∈ atomsAll es) :
    a.token ∈ flattenAll es := by
  have hmem := List.mem_map_of_mem (f := Atom.token) h
  rw [← filter_flattenAll] at hmem
  exact (List.mem_filter.1 hmem).1

theorem wellFormed_of_mem_flattenAll {comments : Bool} {t : Token} {es : List Form}
    (ha : ∀ a ∈ atomsAll es, a.Readable comments) (ht : t ∈ flattenAll es) :
    t.WellFormed comments := by
  by_cases hp : isParenthesis t = true
  · simp only [isParenthesis, Bool.or_eq_true, beq_iff_eq] at hp
    rcases hp with rfl | rfl <;> trivial
  · have hmem : t ∈ (flattenAll es).filter (fun t => !isParenthesis t) :=
      List.mem_filter.2 ⟨ht, by simpa using hp⟩
    rw [filter_flattenAll] at hmem
    obtain ⟨a, hatom, rfl⟩ := List.mem_map.1 hmem
    exact (Atom.readable_iff.1 (ha a hatom)).1

end Form

end Sexpr
