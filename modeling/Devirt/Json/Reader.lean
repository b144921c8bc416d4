import Devirt.Json.Number

set_option autoImplicit false

/-! # Reading JSON text

The grammar is the strict one: a single value with blanks around it, no comments, no trailing commas,
no leading zeros, no raw control characters in strings.  Every step takes characters from the front and
answers what is left.  Nesting is not limited here; the argument `fuel` bounds the recursion, and the
length of the text is always enough of it. -/

namespace Devirt

namespace Json

namespace Reader

def isSpace (c : Char) : Bool := c == ' ' || c == '\n' || c == '\t' || c == '\r'

def skip (cs : List Char) : List Char := cs.dropWhile isSpace

def isDigit (c : Char) : Bool := '0' ≤ c && c ≤ '9'

/-- The decimal digits in front, as numbers. -/
def digits (cs : List Char) : List Nat × List Char :=
  ((cs.takeWhile isDigit).map fun c => c.toNat - '0'.toNat, cs.dropWhile isDigit)

/-- The text after a given word. -/
def word : List Char → List Char → Option (List Char)
  | [], cs => some cs
  | w :: ws, c :: cs => if w = c then word ws cs else none
  | _ :: _, [] => none

/-! ## Numbers -/

/-- The digits behind a decimal point; a point without digits is refused. -/
def fraction : List Char → Option (List Nat × List Char)
  | '.' :: cs =>
    match digits cs with
    | ([], _) => none
    | (ds, rest) => some (ds, rest)
  | cs => some ([], cs)

/-- The digits of an exponent and whether it is negative. -/
def exponentDigits (negative : Bool) (cs : List Char) : Option (Option (Bool × List Nat) × List Char) :=
  match digits cs with
  | ([], _) => none
  | (ds, rest) => some (some (negative, ds), rest)

def exponent : List Char → Option (Option (Bool × List Nat) × List Char)
  | 'e' :: cs | 'E' :: cs =>
    match cs with
    | '+' :: cs => exponentDigits false cs
    | '-' :: cs => exponentDigits true cs
    | cs => exponentDigits false cs
  | cs => some (none, cs)

/-- A number without its sign. -/
def unsigned (negative : Bool) (cs : List Char) : Option (Json × List Char) :=
  match digits cs with
  | ([], _) | (0 :: _ :: _, _) => none
  | (whole, cs) => do
    let (frac, cs) ← fraction cs
    let (exp, cs) ← exponent cs
    return ((Literal.mk negative whole frac exp).value, cs)

def number : List Char → Option (Json × List Char)
  | '-' :: cs => unsigned true cs
  | cs => unsigned false cs

/-! ## Strings -/

/-- What stands at one place of a string. -/
inductive Piece where
  | char (c : Char)
  /-- Half of a surrogate pair. -/
  | half (unit : Nat)

def hexDigit? (c : Char) : Option Nat :=
  if '0' ≤ c ∧ c ≤ '9' then some (c.toNat - '0'.toNat)
  else if 'a' ≤ c ∧ c ≤ 'f' then some (c.toNat - 'a'.toNat + 10)
  else if 'A' ≤ c ∧ c ≤ 'F' then some (c.toNat - 'A'.toNat + 10)
  else none

def unit (a b c d : Char) : Option Piece := do
  let n := (((← hexDigit? a) * 16 + (← hexDigit? b)) * 16 + (← hexDigit? c)) * 16 + (← hexDigit? d)
  return if 0xd800 ≤ n ∧ n ≤ 0xdfff then .half n else .char (Char.ofNat n)

def escape? : Char → Option Char
  | '"' => some '"'
  | '\\' => some '\\'
  | '/' => some '/'
  | 'b' => some '\x08'
  | 'f' => some '\x0c'
  | 'n' => some '\n'
  | 'r' => some '\r'
  | 't' => some '\t'
  | _ => none

/-- The pieces up to the closing quote, and whether none of them was escaped. -/
def pieces : List Char → Option (List Piece × Bool × List Char)
  | '"' :: cs => some ([], true, cs)
  | '\\' :: 'u' :: a :: b :: c :: d :: cs => do
    let p ← unit a b c d
    let (ps, _, rest) ← pieces cs
    return (p :: ps, false, rest)
  | '\\' :: e :: cs => do
    let c ← escape? e
    let (ps, _, rest) ← pieces cs
    return (.char c :: ps, false, rest)
  | c :: cs =>
    if c.toNat < 0x20 ∨ c = '\\' then none
    else do
      let (ps, plain, rest) ← pieces cs
      return (.char c :: ps, plain, rest)
  | [] => none

/-- The characters of a string whose surrogates pair up. -/
def join : List Piece → Option (List Char)
  | [] => some []
  | .char c :: ps => (join ps).map (c :: ·)
  | .half hi :: .half lo :: ps =>
    if hi < 0xdc00 ∧ 0xdc00 ≤ lo then
      (join ps).map (Char.ofNat (0x10000 + (hi - 0xd800) * 0x400 + (lo - 0xdc00)) :: ·)
    else none
  | .half _ :: _ => none

def string (cs : List Char) : Option (Json × List Char) := do
  let (ps, _, rest) ← pieces cs
  return (((join ps).map fun cs => .string (String.ofList cs)).getD .unreadable, rest)

/-! ## Values -/

/-- An object, unless one of its keys is unreadable. -/
def close (members : List (Option Member)) : Json :=
  ((members.mapM id).map Json.object).getD .unreadable

mutual

/-- A value behind blanks. -/
def value : Nat → List Char → Option (Json × List Char)
  | 0, _ => none
  | fuel + 1, cs =>
    match skip cs with
    | '"' :: cs => string cs
    | '[' :: cs =>
      match skip cs with
      | ']' :: cs => some (.array [], cs)
      | cs => do
        let (items, rest) ← items fuel cs
        return (.array items, rest)
    | '\x7b' :: cs =>
      match skip cs with
      | '\x7d' :: cs => some (.object [], cs)
      | cs => do
        let (members, rest) ← members fuel cs
        return (close members, rest)
    | 't' :: cs => (word ['r', 'u', 'e'] cs).map fun rest => (.bool true, rest)
    | 'f' :: cs => (word ['a', 'l', 's', 'e'] cs).map fun rest => (.bool false, rest)
    | 'n' :: cs => (word ['u', 'l', 'l'] cs).map fun rest => (.null, rest)
    | cs => number cs

/-- The items of an array up to its bracket, one at least. -/
def items : Nat → List Char → Option (List Json × List Char)
  | 0, _ => none
  | fuel + 1, cs => do
    let (item, cs) ← value fuel cs
    match skip cs with
    | ']' :: rest => return ([item], rest)
    | ',' :: cs =>
      let (rest, cs) ← items fuel cs
      return (item :: rest, cs)
    | _ => none

/-- The members of an object up to its brace, one at least. -/
def members : Nat → List Char → Option (List (Option Member) × List Char)
  | 0, _ => none
  | fuel + 1, cs =>
    match skip cs with
    | '"' :: cs => do
      let (key, plain, cs) ← pieces cs
      match skip cs with
      | ':' :: cs =>
        let (v, cs) ← value fuel cs
        let member := (join key).map fun k => Member.mk (String.ofList k) plain v
        match skip cs with
        | '\x7d' :: rest => return ([member], rest)
        | ',' :: cs =>
          let (rest, cs) ← members fuel cs
          return (member :: rest, cs)
        | _ => none
      | _ => none
    | _ => none

end

end Reader

/-- The value of a text. -/
def read (text : String) : Option Json :=
  let cs := text.toList
  match Reader.value (2 * cs.length + 1) cs with
  | some (j, rest) => if (Reader.skip rest).isEmpty then some j else none
  | none => none

end Json

end Devirt
