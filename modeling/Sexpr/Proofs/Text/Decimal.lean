import Mathlib.Data.List.Induction
import Mathlib.Data.List.TakeWhile
import Mathlib.Data.Nat.Digits.Defs
import Sexpr.Text.Decimal

/-!
# Decimal texts and the integers they denote

The digits of a text count ones, tens, hundreds and so on from its end, and a minus sign in front of
them makes the number negative. `Denotes` says that on its own, without the loop that reads digits.
Of all texts that denote one integer, the canonical one has no leading zero and no sign at zero.

* `int?_eq_some_iff`: **what is read is what the text denotes**;
* `spell_eq_canonical`: **what is written is the text itself, without its leading zeros**, so
  reading and writing undo one another;
* `inRange_iff`: the values of a word are those from `-2^63` to `2^63 - 1`.
-/

namespace Sexpr.Decimal

/-- The number that digits stand for by their places; the last one counts ones. -/
def positional (ds : List Char) : Nat := Nat.ofDigits 10 (ds.reverse.map digitValue)

/-- A text is an optional minus sign and one digit or more, and denotes an integer. -/
inductive Denotes : List Char → Int → Prop where
  | natural {ds : List Char} (hne : ds ≠ []) (hdigits : ∀ d ∈ ds, d.isDigit = true) :
    Denotes ds (positional ds)
  | negative {ds : List Char} (hne : ds ≠ []) (hdigits : ∀ d ∈ ds, d.isDigit = true) :
    Denotes ('-' :: ds) (-(positional ds : Int))

/-- Digits without leading zeros. One zero stays if there is nothing else. -/
def trim (ds : List Char) : List Char :=
  if ds.all (· == '0') then ['0'] else ds.dropWhile (· == '0')

/-- The canonical text of the integer that a text denotes. A text that denotes none stays as it
is. -/
def canonical (cs : List Char) : List Char :=
  if isInteger cs then
    match cs with
    | '-' :: ds => if ds.all (· == '0') then ['0'] else '-' :: trim ds
    | ds => trim ds
  else cs

variable {cs ds : List Char} {z : Int}

/-! ## Digits and their places -/

theorem value_concat (ds : List Char) (d : Char) :
    value (ds ++ [d]) = 10 * value ds + digitValue d := by
  simp [value]

theorem value_eq_positional (ds : List Char) : value ds = positional ds := by
  induction ds using List.reverseRecOn with
  | nil => rfl
  | append_singleton ds d ih =>
    rw [value_concat, ih]
    simp [positional, Nat.ofDigits_cons, Nat.add_comm]

theorem digitValue_lt {d : Char} (h : d.isDigit = true) : digitValue d < 10 := by
  obtain ⟨-, hhi⟩ := Char.isDigit_iff_toNat.1 h
  have h9 : d.toNat ≤ 57 := hhi
  show d.toNat - 48 < 10
  omega

theorem digitChar_digitValue {d : Char} (h : d.isDigit = true) :
    Nat.digitChar (digitValue d) = d := by
  obtain ⟨hlo, -⟩ := Char.isDigit_iff_toNat.1 h
  have h0 : 48 ≤ d.toNat := hlo
  apply Char.toNat_inj.1
  rw [Nat.toNat_digitChar_of_lt_ten (digitValue_lt h)]
  show 48 + (d.toNat - 48) = d.toNat
  omega

theorem digitValue_eq_zero_iff {d : Char} (h : d.isDigit = true) : digitValue d = 0 ↔ d = '0' := by
  constructor
  · intro hzero
    rw [← digitChar_digitValue h, hzero]
    rfl
  · rintro rfl
    rfl

/-- Only zeros are worth nothing. -/
theorem value_eq_zero_iff (h : ∀ d ∈ ds, d.isDigit = true) :
    value ds = 0 ↔ ds.all (· == '0') = true := by
  induction ds using List.reverseRecOn with
  | nil => simp [value]
  | append_singleton ds d ih =>
    have hd := h d (by simp)
    have hds := ih fun e he => h e (by simp [he])
    rw [value_concat, List.all_append, Bool.and_eq_true, ← hds]
    have hlast := digitValue_eq_zero_iff hd
    simp only [List.all_cons, List.all_nil, Bool.and_true, beq_iff_eq, ← hlast]
    omega

theorem value_dropWhile_zero (ds : List Char) : value (ds.dropWhile (· == '0')) = value ds := by
  induction ds with
  | nil => rfl
  | cons d ds ih =>
    by_cases hd : d = '0'
    · subst hd
      rw [List.dropWhile_cons_of_pos (by simp), ih]
      rfl
    · rw [List.dropWhile_cons_of_neg (by simpa using hd)]

/-! ## Writing what was read -/

/-- Digits that do not start with a zero are written as they were read. -/
theorem digits_value (hne : ds ≠ []) (h : ∀ d ∈ ds, d.isDigit = true)
    (hhead : ds.head? ≠ some '0') : digits (value ds) = ds := by
  induction ds using List.reverseRecOn with
  | nil => exact absurd rfl hne
  | append_singleton ds d ih =>
    have hd := h d (by simp)
    have hlt := digitValue_lt hd
    have hds : ∀ e ∈ ds, e.isDigit = true := fun e he => h e (by simp [he])
    rw [value_concat, digits]
    by_cases hnil : ds = []
    · subst hnil
      have hvalue : value [] = 0 := rfl
      rw [hvalue, Nat.mul_zero, Nat.zero_add, if_pos hlt, digitChar_digitValue hd]
      rfl
    · have hstart : ds.head? ≠ some '0' := by
        intro heq
        apply hhead
        rw [List.head?_append, heq]
        rfl
      -- The digits in front are worth something, so that more than one digit is written.
      have hpos : value ds ≠ 0 := by
        intro hzero
        obtain ⟨e, es, rfl⟩ := List.exists_cons_of_ne_nil hnil
        have hall := (value_eq_zero_iff hds).1 hzero
        simp_all
      have hquot : (10 * value ds + digitValue d) / 10 = value ds := by omega
      have hrem : (10 * value ds + digitValue d) % 10 = digitValue d := by omega
      rw [if_neg (by omega), hquot, hrem, ih hnil hds hstart, digitChar_digitValue hd]

/-- What is written for the value of digits are these digits, without leading zeros. -/
theorem digits_value_eq_trim (h : ∀ d ∈ ds, d.isDigit = true) : digits (value ds) = trim ds := by
  unfold trim
  by_cases hzero : ds.all (· == '0') = true
  · rw [if_pos hzero, (value_eq_zero_iff h).2 hzero, digits, if_pos (by decide)]
    rfl
  · have hne : ds.dropWhile (· == '0') ≠ [] := by
      intro hnil
      apply hzero
      rw [List.all_eq_true]
      exact List.dropWhile_eq_nil_iff.1 hnil
    have hhead : (ds.dropWhile (· == '0')).head? ≠ some '0' := by
      intro hhead
      have hnot := List.head?_dropWhile_not (· == '0') ds
      rw [hhead] at hnot
      simp at hnot
    rw [if_neg hzero, ← value_dropWhile_zero,
      digits_value hne (fun d hd => h d (List.dropWhile_subset _ hd)) hhead]

/-! ## Integers -/

/-- What is read from a text is what it denotes. -/
theorem int?_eq_some_iff : int? cs = some z ↔ Denotes cs z := by
  constructor
  · intro h
    obtain ⟨sign, ds, rfl, hsign, hne, hdigits⟩ := isInteger_iff.1 (isInteger_of_int?_eq_some h)
    have hnatural := isNatural_iff.2 ⟨hne, hdigits⟩
    rcases hsign with rfl | rfl
    · rw [List.nil_append, int?_natural hnatural, value_eq_positional] at h
      cases h
      exact .natural hne hdigits
    · rw [List.singleton_append, int?_minus hnatural, value_eq_positional] at h
      cases h
      exact .negative hne hdigits
  · intro h
    cases h with
    | natural hne hdigits =>
      rw [int?_natural (isNatural_iff.2 ⟨hne, hdigits⟩), value_eq_positional]
    | negative hne hdigits =>
      rw [int?_minus (isNatural_iff.2 ⟨hne, hdigits⟩), value_eq_positional]

/-- A text denotes an integer exactly if it has the shape of one. -/
theorem exists_denotes_iff : (∃ z, Denotes cs z) ↔ isInteger cs = true := by
  rw [← int?_isSome, Option.isSome_iff_exists]
  exact exists_congr fun z => int?_eq_some_iff.symm

theorem canonical_natural (h : isNatural ds = true) : canonical ds = trim ds := by
  have hinteger : isInteger ds = true := by rwa [isInteger, unsigned_of_isNatural h]
  unfold canonical
  rw [if_pos hinteger]
  split
  · simp [isNatural] at h
  · rfl

theorem canonical_minus (h : isNatural ds = true) :
    canonical ('-' :: ds) = if ds.all (· == '0') then ['0'] else '-' :: trim ds := by
  have hinteger : isInteger ('-' :: ds) = true := h
  rw [canonical, if_pos hinteger]

/-- What is written for the integer that a text denotes is the canonical form of the text. -/
theorem spell_eq_canonical (h : Denotes cs z) : spell z = canonical cs := by
  cases h with
  | natural hne hdigits =>
    rw [canonical_natural (isNatural_iff.2 ⟨hne, hdigits⟩), spell, if_neg (by omega),
      Int.natAbs_natCast, ← value_eq_positional, digits_value_eq_trim hdigits]
  | @negative ds hne hdigits =>
    rw [canonical_minus (isNatural_iff.2 ⟨hne, hdigits⟩), spell, Int.natAbs_neg,
      Int.natAbs_natCast, ← value_eq_positional, digits_value_eq_trim hdigits]
    by_cases hall : ds.all (· == '0') = true
    · have hzero := (value_eq_zero_iff hdigits).2 hall
      rw [if_pos hall, if_neg (by omega), trim, if_pos hall]
    · have hpos : value ds ≠ 0 := fun hzero => hall ((value_eq_zero_iff hdigits).1 hzero)
      rw [if_neg hall, if_pos (by omega)]

theorem canonical_eq_self (h : ¬ ∃ z, Denotes cs z) : canonical cs = cs := by
  rw [exists_denotes_iff] at h
  simp [canonical, h]

theorem inRange_iff : inRange z = true ↔ -2 ^ 63 ≤ z ∧ z ≤ 2 ^ 63 - 1 := by
  simp only [inRange, Int64.toInt_minValue, Int64.toInt_maxValue, Bool.and_eq_true,
    decide_eq_true_eq]

/-- An integer in range is the value of its word. -/
theorem toInt_ofInt_of_inRange (h : inRange z = true) : (Int64.ofInt z).toInt = z := by
  obtain ⟨hlo, hhi⟩ := inRange_iff.1 h
  exact Int64.toInt_ofInt_of_le hlo (by omega)

/-- What is read as a word is the word whose value the text denotes. -/
theorem int64?_eq_some_iff {n : Int64} : int64? cs = some n ↔ Denotes cs n.toInt := by
  rw [← int?_eq_some_iff]
  constructor
  · intro h
    unfold int64? at h
    split at h
    · rename_i z hz
      split at h
      · rename_i hrange
        cases h
        rw [toInt_ofInt_of_inRange hrange, hz]
      · cases h
    · cases h
  · intro h
    simp [int64?, h, inRange_toInt]

end Sexpr.Decimal
