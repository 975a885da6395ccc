/-!
# Blank characters

Blanks separate tokens and mean nothing else. The class is the Unicode property `White_Space`, which
holds more than the ASCII blanks: the non-breaking space, the ideographic space and the line and
paragraph separators are blanks too.
-/

namespace Sexpr

/-- The code points of the class as closed ranges, in ascending order. -/
def blankRanges : List (Nat × Nat) :=
  [(0x09, 0x0D), (0x20, 0x20), (0x85, 0x85), (0xA0, 0xA0), (0x1680, 0x1680), (0x2000, 0x200A),
   (0x2028, 0x2029), (0x202F, 0x202F), (0x205F, 0x205F), (0x3000, 0x3000)]

/-- Whether a character separates tokens. -/
def isBlank (c : Char) : Bool :=
  blankRanges.any fun (lo, hi) => lo ≤ c.toNat && c.toNat ≤ hi

end Sexpr
