set_option autoImplicit false

/-! # Double precision numbers as words

A number of the analysed language is an IEEE 754 binary64 datum.  It is kept as its 64-bit word, so
that two numbers are equal exactly when their bits are: `0` and `-0` differ, and a NaN is equal to
itself.  All arithmetic is on exact natural numbers, rounded once at the end (`roundQuotient`); no
machine floating-point operation is involved, and every definition can be evaluated in a proof.

A finite word has the value `± significand · 2 ^ exponent`, with `exponent ≥ -1074`. -/

namespace Devirt

/-- A binary64 datum, given by its word. -/
structure Double where
  bits : UInt64
  deriving DecidableEq, Inhabited

namespace Double

/-! ## The fields of a word -/

/-- The weight of the sign bit, `2 ^ 63`. -/
def signWeight : Nat := 0x8000000000000000

/-- The weight of the lowest bit of the exponent, `2 ^ 52`. -/
def exponentWeight : Nat := 0x10000000000000

/-- The sign bit. -/
def isNegative (x : Double) : Bool := signWeight ≤ x.bits.toNat

/-- The 11-bit biased exponent. -/
def biased (x : Double) : Nat := x.bits.toNat / exponentWeight % 2048

/-- The 52 bits below it. -/
def fraction (x : Double) : Nat := x.bits.toNat % exponentWeight

def isFinite (x : Double) : Bool := x.biased ≠ 2047

def isInfinite (x : Double) : Bool := x.biased = 2047 ∧ x.fraction = 0

def isNaN (x : Double) : Bool := x.biased = 2047 ∧ x.fraction ≠ 0

/-- The whole number whose multiple by a power of two is the magnitude of a finite word. -/
def significand (x : Double) : Nat :=
  if x.biased = 0 then x.fraction else exponentWeight + x.fraction

/-- The power of two that goes with `significand`. -/
def exponent (x : Double) : Int := (max x.biased 1 : Int) - 1075

/-- Zero of either sign. -/
def isZero (x : Double) : Bool := x.bits.toNat % signWeight = 0

/-- The magnitude of a finite word as a quotient of natural numbers. -/
def ratio (x : Double) : Nat × Nat :=
  (x.significand * Nat.pow 2 x.exponent.toNat, Nat.pow 2 (-x.exponent).toNat)

/-! ## Building words -/

/-- The word with the given sign and the magnitude of `word`, a number below `2 ^ 63`. -/
def ofMagnitude (negative : Bool) (word : Nat) : Double :=
  ⟨UInt64.ofNat (if negative then signWeight + word else word)⟩

def zero : Double := ⟨0⟩

/-- The same magnitude with the other sign; a NaN flips its sign bit as well. -/
def neg (x : Double) : Double := ⟨x.bits ^^^ 0x8000000000000000⟩

instance : Neg Double := ⟨neg⟩

/-- `a / b` to the nearest whole number, a half to the even one. -/
def divHalfEven (a b : Nat) : Nat :=
  let q := a / b
  let r := a % b
  if 2 * r < b then q else if b < 2 * r then q + 1 else q + q % 2

/-- The largest `e` with `2 ^ e ≤ num / den`. -/
def floorLog2 (num den : Nat) : Int :=
  let e : Int := (num.log2 : Int) - den.log2
  if den * Nat.pow 2 e.toNat ≤ num * Nat.pow 2 (-e).toNat then e else e - 1

/-- The magnitude word nearest to `num / den`, a tie to the even significand.  Counting in units of
the last place makes the carry into the exponent automatic; what passes the last finite word is
infinite. -/
def roundQuotient (num den : Nat) : Nat :=
  if num = 0 then 0
  else
    let e : Int := max (floorLog2 num den - 52) (-1074)
    let units := divHalfEven (num * Nat.pow 2 (-e).toNat) (den * Nat.pow 2 e.toNat)
    min ((e + 1074).toNat * exponentWeight + units) (2047 * exponentWeight)

/-- The number nearest to a natural number. -/
def ofNat (n : Nat) : Double := ofMagnitude false (roundQuotient n 1)

/-- The number nearest to an integer; zero is positive. -/
def ofInt (n : Int) : Double := ofMagnitude (decide (n < 0)) (roundQuotient n.natAbs 1)

/-- The magnitude of the product of two finite numbers. -/
def mulMagnitude (x y : Double) : Double :=
  ofMagnitude false (roundQuotient (x.ratio.1 * y.ratio.1) (x.ratio.2 * y.ratio.2))

/-- The magnitude of the quotient of two finite numbers, the second not zero. -/
def divMagnitude (x y : Double) : Double :=
  ofMagnitude false (roundQuotient (x.ratio.1 * y.ratio.2) (x.ratio.2 * y.ratio.1))

/-! ## Small facts -/

theorem neg_neg (x : Double) : - -x = x := by
  cases x with
  | mk bits =>
    show (⟨_⟩ : Double) = ⟨bits⟩
    congr 1
    show bits ^^^ _ ^^^ _ = bits
    rw [UInt64.xor_assoc]
    simp

theorem divHalfEven_cases (a b : Nat) :
    divHalfEven a b = a / b ∧ 2 * (a % b) ≤ b ∨ divHalfEven a b = a / b + 1 ∧ b ≤ 2 * (a % b) := by
  simp only [divHalfEven]
  split
  · omega
  · split <;> omega

/-- Rounding is off by a half at most. -/
theorem divHalfEven_near (a : Nat) {b : Nat} (hb : 0 < b) :
    2 * a ≤ b * (2 * divHalfEven a b + 1) ∧ b * (2 * divHalfEven a b) ≤ 2 * a + b := by
  have hdiv := Nat.div_add_mod a b
  have hmod := Nat.mod_lt a hb
  rcases divHalfEven_cases a b with ⟨hdown, hrest⟩ | ⟨hup, hrest⟩
  · rw [hdown, Nat.mul_succ, Nat.mul_left_comm]
    omega
  · rw [hup, Nat.mul_succ, Nat.mul_left_comm, Nat.mul_succ]
    omega

/-- A half goes to the even number. -/
theorem divHalfEven_half {a b : Nat} (h : 2 * (a % b) = b) : divHalfEven a b % 2 = 0 := by
  simp only [divHalfEven]
  rw [if_neg (by omega), if_neg (by omega)]
  omega

example : divHalfEven 5 2 = 2 := by decide
example : divHalfEven 7 2 = 4 := by decide

end Double

end Devirt
