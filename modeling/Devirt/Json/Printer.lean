import Devirt.Json.Value
import Devirt.Number.Shortest

set_option autoImplicit false

/-! # Writing JSON text

Values are written with two blanks of indentation per level; an empty array or object stays on its
line.  In strings the quote, the backslash and the control characters are escaped, all else is written
as it is.

A double is written with the fewest digits that read back, a tie going to the even digit.  Magnitudes
from `10 ^ -5` up to `10 ^ 16` are positional, with a zero behind the point of a whole number; the
others have an exponent.  A double that is not finite becomes `null`. -/

namespace Devirt

namespace Json

namespace Printer

def hexDigit (n : Nat) : Char := (Nat.digitChar n)

/-- The written form of one character of a string. -/
def escape (c : Char) : List Char :=
  if c = '"' then ['\\', '"']
  else if c = '\\' then ['\\', '\\']
  else if c = '\n' then ['\\', 'n']
  else if c = '\r' then ['\\', 'r']
  else if c = '\t' then ['\\', 't']
  else if c = '\x08' then ['\\', 'b']
  else if c = '\x0c' then ['\\', 'f']
  else if c.toNat < 0x20 then
    ['\\', 'u', '0', '0', hexDigit (c.toNat / 16), hexDigit (c.toNat % 16)]
  else [c]

def quoted (s : String) : String := String.ofList ('"' :: (s.toList.flatMap escape ++ ['"']))

/-- A whole number shows that it is a double by a zero behind the point. -/
def plain (d : Decimal) : String := d.positional ++ if 0 ≤ d.scale then ".0" else ""

def real (x : Double) : String :=
  if !x.isFinite then "null"
  else
    let sign := if x.isNegative then "-" else ""
    if x.isZero then sign ++ "0.0"
    else
      let d := Decimal.shortest .even x
      sign ++ if -5 < d.point ∧ d.point ≤ 16 then plain d else d.scientific

/-- A new line at a level. -/
def newline (level : Nat) : String := "\n" ++ String.ofList (List.replicate (2 * level) ' ')

mutual

/-- The text of a value at a level. -/
def value (level : Nat) : Json → String
  | .null | .unreadable => "null"
  | .bool b => if b then "true" else "false"
  | .int n => toString n
  | .real x => real x
  | .string s => quoted s
  | .array [] => "[]"
  | .array (j :: js) =>
    "[" ++ newline (level + 1) ++ value (level + 1) j ++ items (level + 1) js ++ newline level ++ "]"
  | .object [] => "\x7b\x7d"
  | .object (m :: ms) =>
    "\x7b" ++ newline (level + 1) ++ member (level + 1) m ++ members (level + 1) ms ++ newline level
      ++ "\x7d"

def items (level : Nat) : List Json → String
  | [] => ""
  | j :: js => "," ++ newline level ++ value level j ++ items level js

def member (level : Nat) : Member → String
  | .mk key _ v => quoted key ++ ": " ++ value level v

def members (level : Nat) : List Member → String
  | [] => ""
  | m :: ms => "," ++ newline level ++ member level m ++ members level ms

end

end Printer

/-- The text of a value, over several lines. -/
def pretty (j : Json) : String := Printer.value 0 j

end Json

end Devirt
