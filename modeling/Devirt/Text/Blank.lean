import Devirt.Text.Ranges

set_option autoImplicit false

/-! # White space

The characters with the Unicode property `White_Space`, and trimming by them. -/

namespace Devirt.Text

/-- The ranges of the property. -/
def blankRanges : Ranges :=
  [(0x0009, 0x000d), (0x0020, 0x0020), (0x0085, 0x0085), (0x00a0, 0x00a0), (0x1680, 0x1680),
   (0x2000, 0x200a), (0x2028, 0x2029), (0x202f, 0x202f), (0x205f, 0x205f), (0x3000, 0x3000)]

def isBlank (c : Char) : Bool := blankRanges.contains c

/-- The text without the blanks at its end. -/
def trimEnd (s : String) : String :=
  String.ofList (s.toList.reverse.dropWhile isBlank).reverse

end Devirt.Text
