set_option autoImplicit false

/-! # Ranges of characters

A property of characters is given by the ranges of code points that have it, in ascending order. -/

namespace Devirt.Text

/-- Ranges of code points, first and last. -/
abbrev Ranges := List (Nat × Nat)

namespace Ranges

def contains (rs : Ranges) (c : Char) : Bool := rs.any fun r => r.1 ≤ c.toNat && c.toNat ≤ r.2

/-- Whether every range is in order and lies behind the one before it, from a code point on. -/
def ascending : Nat → Ranges → Bool
  | _, [] => true
  | low, (first, last) :: rs => low ≤ first && first ≤ last && ascending (last + 1) rs

end Ranges

end Devirt.Text
