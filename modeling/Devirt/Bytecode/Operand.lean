set_option autoImplicit false

/-! # Operands

Operands are signed 32-bit words that come straight from the input, so every adjustment saturates: it
yields the exact result, clamped to the range of a word. -/

namespace Devirt

abbrev Operand := Int32

namespace Operand

/-- The word nearest to an integer. -/
def clamp (n : Int) : Operand := Int32.ofIntClamp n

/-- Sum of a word and an integer, saturating. -/
def plus (x : Operand) (n : Int) : Operand := clamp (x.toInt + n)

/-- Difference of two words, saturating. -/
def minus (x y : Operand) : Operand := clamp (x.toInt - y.toInt)

theorem toInt_clamp {n : Int} (lo : -0x80000000 ≤ n) (hi : n ≤ 0x7fffffff) : (clamp n).toInt = n :=
  Int32.toInt_ofIntClamp lo hi

/-! ## Saturation -/

/-- The nearest integer that a word can hold. -/
def nearest (n : Int) : Int := max (-0x80000000) (min n 0x7fffffff)

theorem nearest_mono {m n : Int} (h : m ≤ n) : nearest m ≤ nearest n := by
  unfold nearest
  omega

theorem nearest_of_le {n : Int} (lo : -0x80000000 ≤ n) (hi : n ≤ 0x7fffffff) : nearest n = n := by
  unfold nearest
  omega

/-- Every word is its own nearest integer. -/
theorem nearest_toInt (x : Operand) : nearest x.toInt = x.toInt := by
  have hleast : -2 ^ 31 ≤ x.toInt := x.le_toInt
  have hmost : x.toInt < 2 ^ 31 := x.toInt_lt
  exact nearest_of_le (by omega) (by omega)

theorem toInt_clamp_eq (n : Int) : (clamp n).toInt = nearest n := by
  by_cases lo : -0x80000000 ≤ n
  · by_cases hi : n ≤ 0x7fffffff
    · rw [toInt_clamp lo hi, nearest_of_le lo hi]
    · have hclamp : clamp n = Int32.maxValue := by
        have hlo : Int32.minValue.toInt ≤ n := lo
        have hhi : ¬ n ≤ Int32.maxValue.toInt := hi
        rw [clamp, Int32.ofIntClamp, dif_pos hlo, dif_neg hhi]
      have hnearest : nearest n = 0x7fffffff := by
        unfold nearest
        omega
      rw [hclamp, hnearest]
      rfl
  · have hclamp : clamp n = Int32.minValue := by
      have hlo : ¬ Int32.minValue.toInt ≤ n := lo
      rw [clamp, Int32.ofIntClamp, dif_neg hlo]
    have hnearest : nearest n = -0x80000000 := by
      unfold nearest
      omega
    rw [hclamp, hnearest]
    rfl

theorem toInt_plus_eq (x : Operand) (n : Int) : (x.plus n).toInt = nearest (x.toInt + n) :=
  toInt_clamp_eq _

theorem toInt_minus_eq (x y : Operand) : (x.minus y).toInt = nearest (x.toInt - y.toInt) :=
  toInt_clamp_eq _

/-- A difference is saturated once if what is taken away is exact. -/
theorem toInt_minus_plus (x : Operand) {y : Operand} {n : Int} (lo : -0x80000000 ≤ y.toInt + n)
    (hi : y.toInt + n ≤ 0x7fffffff) :
    (x.minus (y.plus n)).toInt = nearest (x.toInt - (y.toInt + n)) := by
  rw [toInt_minus_eq, toInt_plus_eq, nearest_of_le lo hi]

end Operand

end Devirt
