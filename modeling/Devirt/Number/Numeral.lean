import Devirt.Number.Shortest

set_option autoImplicit false

/-! # Numerals of the analysed language

A number is written as a literal that evaluates to it: the fewest digits that read back, in plain
positional notation, a tie between two shortest decimals going up.  The values without a literal are
written as the division that yields them.  Zero loses its sign. -/

namespace Devirt

namespace Double

/-- The text of a number in sources and listings. -/
def numeral (x : Double) : String :=
  if x.isNaN then "0/0"
  else if x.isInfinite then (if x.isNegative then "-1/0" else "1/0")
  else if x.isZero then "0"
  else (if x.isNegative then "-" else "") ++ (Decimal.shortest .up x).positional

end Double

end Devirt
