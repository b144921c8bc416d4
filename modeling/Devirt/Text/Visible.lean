import Devirt.Text.Extending
import Devirt.Text.Nongraphic

set_option autoImplicit false

/-! # Names made visible

A name in a message stands between double quotes, and all of it can be seen.  The quote, the backslash,
newline, carriage return, tab and the zero character have short escapes.  Any other character that would
not show where it stands is written as its code point, in hexadecimal between braces: one without a
mark of its own, one that is drawn onto the character before it, and a filler. -/

namespace Devirt.Text.Visible

/-- Letters without a shape: the fillers of Hangul. -/
def fillerRanges : Ranges := [(0x115f, 0x1160), (0x3164, 0x3164), (0xffa0, 0xffa0)]

/-- Whether a character shows by itself. -/
def shows (c : Char) : Bool := !(isNongraphic c || isExtending c || fillerRanges.contains c)

/-- The visible form of one character. -/
def escape (c : Char) : List Char :=
  if c = '"' then ['\\', '"']
  else if c = '\\' then ['\\', '\\']
  else if c = '\n' then ['\\', 'n']
  else if c = '\r' then ['\\', 'r']
  else if c = '\t' then ['\\', 't']
  else if c.toNat = 0 then ['\\', '0']
  else if shows c then [c]
  else '\\' :: 'u' :: '\x7b' :: (Nat.toDigits 16 c.toNat ++ ['\x7d'])

/-- The visible form of a name, quotes included. -/
def quote (name : String) : String :=
  String.ofList ('"' :: (name.toList.flatMap escape ++ ['"']))

end Devirt.Text.Visible
