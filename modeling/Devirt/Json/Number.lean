import Devirt.Json.Value

set_option autoImplicit false

/-! # The values of number literals

An integer literal that fits 64 bits, signed or unsigned, is exact; `-0` is the negative zero.  Every
other literal is evaluated with one 64-bit significand and a power of ten.  Digits are taken into the
significand until the next would overflow it; of the digits left over, those before the point count
into the exponent, and those behind it are dropped.  The significand, rounded to a double, is then
multiplied or divided once by a power of ten that is itself a double, which is where the result may
differ from the nearest double.  A result that is not finite makes the literal unreadable. -/

namespace Devirt

namespace Json

/-- The greatest number of 64 bits. -/
def maxWord : Nat := 0xffffffffffffffff

/-- The parts of a number literal. -/
structure Literal where
  negative : Bool
  whole : List Nat
  /-- Empty when there is no decimal point. -/
  fraction : List Nat
  /-- The sign of the exponent and its digits. -/
  exponent : Option (Bool × List Nat)

/-- A significand with the power of ten that belongs to it. -/
structure Scaled where
  significand : Nat
  scale : Int

namespace Scaled

/-- Takes in digits before the point; from the first that does not fit, all are counted instead. -/
def takeWhole : Scaled → List Nat → Scaled
  | s, [] => s
  | s, d :: ds =>
    if s.scale = 0 ∧ s.significand * 10 + d ≤ maxWord then
      takeWhole ⟨s.significand * 10 + d, 0⟩ ds
    else takeWhole ⟨s.significand, s.scale + 1⟩ ds

/-- Takes in digits behind the point, up to the first that does not fit. -/
def takeFraction : Scaled → List Nat → Scaled
  | s, [] => s
  | s, d :: ds =>
    if s.significand * 10 + d ≤ maxWord then
      takeFraction ⟨s.significand * 10 + d, s.scale - 1⟩ ds
    else s

/-- A power of ten, rounded to a double. -/
def power (n : Nat) : Double := Double.ofNat (Nat.pow 10 n)

/-- The magnitude, if it is finite.  Only powers up to `10 ^ 308` are doubles; a larger divisor is
applied in steps of that size, and after two of them nothing is left. -/
def magnitude? (s : Scaled) : Option Double :=
  let f := Double.ofNat s.significand
  let n := s.scale.natAbs
  if f.isZero then some .zero
  else if 0 ≤ s.scale then
    if n ≤ 308 then some (f.mulMagnitude (power n)) |>.filter Double.isFinite else none
  else if n ≤ 308 then some (f.divMagnitude (power n))
  else if n ≤ 616 then some ((f.divMagnitude (power 308)).divMagnitude (power (n - 308)))
  else some .zero

end Scaled

def decimal (digits : List Nat) : Nat := digits.foldl (fun n d => n * 10 + d) 0

/-- The scale with the exponent added.  An exponent past 32 bits settles the value by itself, which
any exponent of that size does as well. -/
def shift (scale : Int) : Option (Bool × List Nat) → Int
  | none => scale
  | some (negative, digits) =>
    let e : Int := min (decimal digits) 0x80000000
    if negative then scale - e else scale + e

/-- The value of a literal. -/
def Literal.value (l : Literal) : Json :=
  let n := decimal l.whole
  if l.fraction.isEmpty ∧ l.exponent.isNone ∧ n ≤ maxWord then
    if !l.negative then .int n
    else if n = 0 ∨ 0x8000000000000000 < n then .real (-Double.ofNat n)
    else .int (-n)
  else
    let s := (Scaled.takeWhole ⟨0, 0⟩ l.whole).takeFraction l.fraction
    match ({ s with scale := shift s.scale l.exponent } : Scaled).magnitude? with
    | some x => .real (if l.negative then -x else x)
    | none => .unreadable

end Json

end Devirt
