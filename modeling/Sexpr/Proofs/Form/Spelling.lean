import Sexpr.Form.Atom
import Sexpr.Proofs.Text.Decimal
import Sexpr.Token.Basic

/-!
# Atoms and how they are spelled

An atom is written with one token, and a text denotes at most one atom. The two undo one another but
for the spelling of integers: there are many ways to spell one, and it is written in the canonical
one.

* `Atom.ofText?_of_denotes`, `Atom.ofText?_of_not_denotes`: what the text of an atom denotes;
* `Atom.ofText?_of_token`: **the token of an atom denotes the atom**, if it is what its text says;
* `Atom.token_of_ofText?`: **the atom of a text is written with the text in canonical spelling**,
  and that denotes the same atom (`Atom.ofText?_canonical`).
-/

namespace Sexpr

/-- The token an atom is written with. -/
def Atom.token : Atom → Token
  | .integer n => .atom (Decimal.ofInt64 n)
  | .symbol name => .atom name
  | .text raw => .atom raw
  | .marker m => .marker m

/-- Symbols and quoted texts are what their own text says they are. -/
def Atom.Classified : Atom → Prop
  | .symbol name => AtomKind.of name = .symbol
  | .text raw => AtomKind.of raw = .text
  | _ => True

instance : DecidablePred Atom.Classified
  | .symbol name => inferInstanceAs (Decidable (AtomKind.of name = .symbol))
  | .text raw => inferInstanceAs (Decidable (AtomKind.of raw = .text))
  | .integer _ | .marker _ => inferInstanceAs (Decidable True)

/-- The token with an integer in canonical spelling, and any other token as it is. -/
def Token.canonical : Token → Token
  | .atom text => .atom (String.ofList (Decimal.canonical text.toList))
  | t => t

/-- The lexeme with its token in canonical spelling, at the same place. -/
def Lexeme.canonical (x : Lexeme) : Lexeme := { x with token := x.token.canonical }

namespace Atom

variable {text : String} {a : Atom} {z : Int}

theorem kind_ofInt64 (n : Int64) : AtomKind.of (Decimal.ofInt64 n) = .integer := by
  rw [AtomKind.of_eq_integer_iff, Decimal.ofInt64, String.toList_ofList]
  exact Decimal.isInteger_of_int?_eq_some (Decimal.int?_spell n.toInt)

theorem ofText?_ofInt64 (n : Int64) : ofText? (Decimal.ofInt64 n) = some (.integer n) := by
  rw [ofText?, kind_ofInt64, Decimal.ofInt64, String.toList_ofList, Decimal.int64?_spell]
  rfl

theorem classified_of_ofText? (h : ofText? text = some a) : a.Classified := by
  unfold ofText? at h
  split at h
  · obtain ⟨n, -, rfl⟩ := Option.map_eq_some_iff.1 h
    trivial
  · rename_i hk
    cases h
    exact hk
  · rename_i hk
    cases h
    exact hk

/-- The token of an atom that is what its text says denotes the atom. -/
theorem ofText?_of_token (ha : a.Classified) (h : a.token = .atom text) :
    ofText? text = some a := by
  cases a with
  | integer n =>
    cases h
    exact ofText?_ofInt64 n
  | symbol name =>
    cases h
    rw [ofText?, show AtomKind.of text = .symbol from ha]
  | text raw =>
    cases h
    rw [ofText?, show AtomKind.of text = .text from ha]
  | marker m => cases h

theorem ofText?_of_denotes (h : Decimal.Denotes text.toList z) :
    ofText? text = if Decimal.inRange z then some (.integer (.ofInt z)) else none := by
  have hkind : AtomKind.of text = .integer :=
    AtomKind.of_eq_integer_iff.2 (Decimal.exists_denotes_iff.1 ⟨z, h⟩)
  simp only [ofText?, hkind, Decimal.int64?, Decimal.int?_eq_some_iff.2 h]
  split <;> rfl

theorem ofText?_of_not_denotes (h : ¬ ∃ z, Decimal.Denotes text.toList z) :
    ofText? text = some (.symbol text) ∨ ofText? text = some (.text text) := by
  unfold ofText?
  split
  · rename_i hkind
    exact absurd (Decimal.exists_denotes_iff.2 (AtomKind.of_eq_integer_iff.1 hkind)) h
  · exact .inr rfl
  · exact .inl rfl

/-- A text and its canonical form denote the same atom. -/
theorem ofText?_canonical (text : String) :
    ofText? (String.ofList (Decimal.canonical text.toList)) = ofText? text := by
  by_cases h : ∃ z, Decimal.Denotes text.toList z
  · obtain ⟨z, hz⟩ := h
    have hcanonical : Decimal.Denotes (Decimal.canonical text.toList) z := by
      rw [← Decimal.spell_eq_canonical hz]
      exact Decimal.int?_eq_some_iff.1 (Decimal.int?_spell z)
    rw [ofText?_of_denotes hz, ofText?_of_denotes (by rwa [String.toList_ofList])]
  · rw [Decimal.canonical_eq_self h, String.ofList_toList]

/-- The atom of a text is written with the text, an integer in canonical spelling. -/
theorem token_of_ofText? (h : ofText? text = some a) : a.token = (Token.atom text).canonical := by
  rw [Token.canonical]
  by_cases hdenotes : ∃ z, Decimal.Denotes text.toList z
  · obtain ⟨z, hz⟩ := hdenotes
    rw [ofText?_of_denotes hz] at h
    split at h
    · rename_i hrange
      cases h
      rw [Atom.token, Decimal.ofInt64, Decimal.toInt_ofInt_of_inRange hrange,
        Decimal.spell_eq_canonical hz]
    · cases h
  · rw [Decimal.canonical_eq_self hdenotes, String.ofList_toList]
    rcases ofText?_of_not_denotes hdenotes with hsymbol | htext
    · rw [hsymbol] at h
      cases h
      rfl
    · rw [htext] at h
      cases h
      rfl

end Atom

end Sexpr
