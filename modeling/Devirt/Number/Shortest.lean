import Devirt.Number.Double

set_option autoImplicit false

/-! # The fewest decimal digits that read back

Every finite double is surrounded by an interval of reals that round to it: half a unit in the last
place to either side, a quarter below a power of two, the ends included exactly when the significand
is even.  `Decimal.shortest` walks the decimal grids `10 ^ k` from coarse to fine and stops at the
first that has a point inside; a grid has a point inside iff one of the two grid neighbours of the
number lies inside.  Of two such neighbours the nearer is taken.

`Decimal.positional` and `Decimal.scientific` write the digits that were found. -/

namespace Devirt

/-- `digits · 10 ^ scale`. -/
structure Decimal where
  digits : Nat
  scale : Int
  deriving DecidableEq, Inhabited

namespace Decimal

/-- Which of two equally near neighbours on a grid is taken. -/
inductive Tie where
  | up
  | even
  deriving DecidableEq

/-- The interval around `x`, in quarters of the significand's unit: lower end, value, upper end, and
whether the ends belong to it. -/
def interval (x : Double) : Nat × Nat × Nat × Bool :=
  let m := x.significand
  let lower := if x.fraction = 0 ∧ 1 < x.biased then 4 * m - 1 else 4 * m - 2
  (lower, 4 * m, 4 * m + 2, m % 2 == 0)

/-- The point of the grid `10 ^ k` that stands for `x`, if the grid has one in the interval. -/
def onGrid (tie : Tie) (x : Double) (k : Int) : Option Nat :=
  let (lower, value, upper, closed) := interval x
  let e := x.exponent - 2
  let unit := Nat.pow 2 e.toNat * Nat.pow 10 (-k).toNat
  let cell := Nat.pow 2 (-e).toNat * Nat.pow 10 k.toNat
  let inside := fun c : Nat =>
    if closed then lower * unit ≤ c * cell ∧ c * cell ≤ upper * unit
    else lower * unit < c * cell ∧ c * cell < upper * unit
  let below := value * unit / cell
  let above := below + 1
  match decide (inside below), decide (inside above) with
  | false, false => none
  | true, false => some below
  | false, true => some above
  | true, true =>
    let down := value * unit - below * cell
    let up := above * cell - value * unit
    if down < up then some below
    else if up < down then some above
    else match tie with
      | .up => some above
      | .even => some (if below % 2 = 0 then below else above)

/-- The first grid with a point, among `n` grids from `k` on. -/
def firstGrid (tie : Tie) (x : Double) : Nat → Int → Decimal
  | 0, k => ⟨0, k⟩
  | n + 1, k =>
    match onGrid tie x k with
    | some c => ⟨c, k⟩
    | none => firstGrid tie x n (k - 1)

/-- The same number without trailing zeros, for `n` digits at most. -/
def strip : Nat → Decimal → Decimal
  | 0, d => d
  | n + 1, d => if d.digits ≠ 0 ∧ d.digits % 10 = 0 then strip n ⟨d.digits / 10, d.scale + 1⟩ else d

/-- The shortest decimal that rounds to the magnitude of the finite number `x`, not zero.  The search
starts on a grid too coarse for `x`; the grid that gives seventeen digits always has a point, and it
is at most twenty grids away. -/
def shortest (tie : Tie) (x : Double) : Decimal :=
  let magnitude := Double.floorLog2 x.ratio.1 x.ratio.2 + 1
  let coarse := magnitude * 30103 / 100000 + 1
  strip 20 (firstGrid tie x 24 coarse)

/-! ## Writing the digits -/

def zeros (n : Nat) : String := String.ofList (List.replicate n '0')

/-- The digits as text. -/
def text (d : Decimal) : String := toString d.digits

/-- How many digits stand before the decimal point. -/
def point (d : Decimal) : Int := d.text.length + d.scale

/-- Plain positional notation, without an exponent however long it gets. -/
def positional (d : Decimal) : String :=
  let ds := d.text.toList
  if 0 ≤ d.scale then d.text ++ zeros d.scale.toNat
  else if 0 < d.point then
    String.ofList (ds.take d.point.toNat) ++ "." ++ String.ofList (ds.drop d.point.toNat)
  else "0." ++ zeros (-d.point).toNat ++ d.text

/-- One digit, the others behind a point, and the exponent with its sign. -/
def scientific (d : Decimal) : String :=
  let ds := d.text.toList
  let e := d.point - 1
  let fractional := if ds.length ≤ 1 then "" else "." ++ String.ofList (ds.drop 1)
  String.ofList (ds.take 1) ++ fractional ++ "e" ++ (if e < 0 then "-" else "+") ++ toString e.natAbs

end Decimal

end Devirt
