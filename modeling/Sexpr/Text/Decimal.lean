/-!
# Decimal integers

Integers are written in decimal with an optional minus sign. Writing is canonical (no leading zero,
no `-0`); reading takes any number of digits, leading zeros and `-0` included, and accepts exactly
the values of a signed 64-bit word.
-/

namespace Sexpr.Decimal

/-- The number a digit stands for. -/
def digitValue (c : Char) : Nat := c.toNat - '0'.toNat

/-- The value of a run of digits, most significant first. -/
def value (ds : List Char) : Nat := ds.foldl (fun n d => 10 * n + digitValue d) 0

/-- One digit or more, and nothing else. -/
def isNatural (cs : List Char) : Bool := !cs.isEmpty && cs.all Char.isDigit

/-- The text of an integer without its sign: at most one minus sign is taken off. -/
def unsigned : List Char → List Char
  | '-' :: cs => cs
  | cs => cs

/-- An optional minus sign and one digit or more. Says nothing about the size of the number. -/
def isInteger (cs : List Char) : Bool := isNatural (unsigned cs)

/-- The integer a text spells, if it spells one. -/
def int? (cs : List Char) : Option Int :=
  if isInteger cs then
    match cs with
    | '-' :: ds => some (-(value ds : Int))
    | ds => some (value ds : Int)
  else none

/-- The values of a signed 64-bit word. -/
def inRange (z : Int) : Bool := Int64.minValue.toInt ≤ z && z ≤ Int64.maxValue.toInt

/-- The 64-bit integer a text spells, if it spells an integer and that is in range. -/
def int64? (cs : List Char) : Option Int64 :=
  match int? cs with
  | some z => if inRange z then some (Int64.ofInt z) else none
  | none => none

/-- The digits of a natural number, most significant first. -/
def digits (n : Nat) : List Char :=
  if n < 10 then [Nat.digitChar n] else digits (n / 10) ++ [Nat.digitChar (n % 10)]

/-- The canonical text of an integer. -/
def spell (z : Int) : List Char :=
  if z < 0 then '-' :: digits z.natAbs else digits z.natAbs

/-- The canonical text of a natural number, as a string. -/
def ofNat (n : Nat) : String := String.ofList (digits n)

/-- The canonical text of a 64-bit integer, as a string. -/
def ofInt64 (n : Int64) : String := String.ofList (spell n.toInt)

/-! ## Reading and writing agree on what is written -/

theorem digitValue_digitChar : ∀ d, d < 10 → digitValue (Nat.digitChar d) = d := by decide

theorem isDigit_digitChar : ∀ d, d < 10 → (Nat.digitChar d).isDigit = true := by decide

theorem digits_ne_nil (n : Nat) : digits n ≠ [] := by
  unfold digits
  split <;> simp

theorem isDigit_of_mem_digits {n : Nat} {c : Char} (h : c ∈ digits n) : c.isDigit = true := by
  rw [digits] at h
  split at h
  · rename_i hn
    rw [List.mem_singleton] at h
    exact h ▸ isDigit_digitChar n hn
  · rw [List.mem_append, List.mem_singleton] at h
    rcases h with h | rfl
    · exact isDigit_of_mem_digits h
    · exact isDigit_digitChar _ (Nat.mod_lt _ (by decide))
termination_by n
decreasing_by omega

theorem isNatural_digits (n : Nat) : isNatural (digits n) = true := by
  simp only [isNatural, Bool.and_eq_true, Bool.not_eq_true', List.isEmpty_eq_false_iff,
    List.all_eq_true]
  exact ⟨digits_ne_nil n, fun c hc => isDigit_of_mem_digits hc⟩

/-- The digits of a number have its value. -/
theorem value_digits (n : Nat) : value (digits n) = n := by
  rw [digits]
  split
  · rename_i hn
    simp [value, digitValue_digitChar n hn]
  · have ih := value_digits (n / 10)
    have hd := digitValue_digitChar (n % 10) (Nat.mod_lt _ (by decide))
    simp only [value, List.foldl_append, List.foldl_cons, List.foldl_nil] at ih ⊢
    rw [ih, hd]
    omega
termination_by n
decreasing_by omega

/-- A minus sign is no digit, so digits are their own unsigned text. -/
theorem unsigned_of_isNatural {cs : List Char} (h : isNatural cs = true) : unsigned cs = cs := by
  unfold unsigned
  split
  · simp [isNatural] at h
  · rfl

theorem isNatural_iff {cs : List Char} :
    isNatural cs = true ↔ cs ≠ [] ∧ ∀ d ∈ cs, d.isDigit = true := by
  simp [isNatural]

/-- An integer is spelled with an optional minus sign and one digit or more. -/
theorem isInteger_iff {cs : List Char} : isInteger cs = true ↔
    ∃ sign ds, cs = sign ++ ds ∧ (sign = [] ∨ sign = ['-']) ∧ ds ≠ [] ∧
      ∀ d ∈ ds, d.isDigit = true := by
  constructor
  · intro h
    unfold isInteger unsigned at h
    split at h
    · rename_i ds
      exact ⟨['-'], ds, rfl, .inr rfl, isNatural_iff.1 h⟩
    · exact ⟨[], cs, rfl, .inl rfl, isNatural_iff.1 h⟩
  · rintro ⟨sign, ds, rfl, rfl | rfl, hds⟩
    · have hn := isNatural_iff.2 hds
      rwa [List.nil_append, isInteger, unsigned_of_isNatural hn]
    · exact isNatural_iff.2 hds

theorem int?_natural {ds : List Char} (h : isNatural ds = true) :
    int? ds = some (value ds : Int) := by
  have hu := unsigned_of_isNatural h
  unfold int?
  rw [isInteger, hu, h, if_pos rfl]
  split
  · rename_i ds
    exact absurd (congrArg List.length hu) (by simp [unsigned])
  · rfl

theorem int?_minus {ds : List Char} (h : isNatural ds = true) :
    int? ('-' :: ds) = some (-(value ds : Int)) := by
  simp [int?, isInteger, unsigned, h]

/-- What is written for an integer reads as the integer. -/
theorem int?_spell (z : Int) : int? (spell z) = some z := by
  have hn := isNatural_digits z.natAbs
  unfold spell
  split
  · rw [int?_minus hn, value_digits, Option.some.injEq]
    omega
  · rw [int?_natural hn, value_digits, Option.some.injEq]
    omega

/-- A word is in its own range. -/
theorem inRange_toInt (n : Int64) : inRange n.toInt = true := by
  have hl := n.le_toInt
  have hu := n.toInt_lt
  simp only [inRange, Bool.and_eq_true, decide_eq_true_eq]
  exact ⟨hl, Int.le_of_lt_add_one hu⟩

/-- What is written for a word reads as the word. -/
theorem int64?_spell (n : Int64) : int64? (spell n.toInt) = some n := by
  simp [int64?, int?_spell, inRange_toInt]

theorem isInteger_of_int?_eq_some {cs : List Char} {z : Int} (h : int? cs = some z) :
    isInteger cs = true := by
  unfold int? at h
  split at h
  · assumption
  · cases h

theorem int?_isSome (cs : List Char) : (int? cs).isSome = isInteger cs := by
  unfold int?
  split
  · split <;> simp_all
  · simp_all

end Sexpr.Decimal
