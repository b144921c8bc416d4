import Devirt.Proofs.RecoveredTree
import Mathlib.Tactic

set_option autoImplicit false

/-! # Operands in exact arithmetic

A rule puts operands right by sums and differences that saturate one after the other.  `Rule.unbounded`
is what the operands would come to if words had no bounds, one line for each way to set an operand.

Only the last step of a rule may reach the end of the range: the step before it stays inside if A is not
one of the two least words and the index not one of the two greatest.  Then to saturate at every step is
to clamp the exact result once (`toInt_operand_apply`).  Indices further down are not exact any more, but a
jump from there is at most as far (`toInt_operand_antitone`). -/

namespace Devirt

open Operand

/-- The operands of an instruction. -/
inductive Letter where
  | a | b | c
  deriving DecidableEq

def Instruction.operand (i : Instruction) : Letter → Operand
  | .a => i.a
  | .b => i.b
  | .c => i.c

namespace Rule

/-- The operands that a rule sets. -/
def sets : Rule → List Letter
  | keep => []
  | constIndexB | constB | jump | loopPrep | countB | returnCount | listCount | clearB => [.b]
  | constC | skipNext | countC => [.c]
  | constBC | test _ | testSet _ | countBC => [.b, .c]
  | compare _ false _ => [.a, .b]
  | compare _ true _ => [.a, .b, .c]

/-- What a rule makes of an operand without any bounds, where `o` are the operands as they stand and `pc` is
the index of the instruction. -/
def unbounded (o : Letter → Int) (pc : Int) : Rule → Letter → Int
  | constIndexB, .b => o .b - 1
  | constB, .b | constBC, .b => o .b + 255
  | constC, .c | constBC, .c => o .c + 255
  | skipNext, .c => 1
  | jump, .b => o .b - (pc + 1)
  | loopPrep, .b => o .b - (pc + 2)
  | compare _ _ flag, .a => flag.toInt
  | compare true _ _, .b => o .a + 255
  | compare false _ _, .b => o .a
  | compare _ true _, .c => o .c + 255
  | test _, .b | clearB, .b => 0
  | testSet _, .b => o .c
  | test flag, .c | testSet flag, .c => flag.toInt
  | countB, .b | countBC, .b => o .b - (o .a - 1)
  | countC, .c | countBC, .c => o .c - (o .a - 2)
  | returnCount, .b => o .b + 2
  | listCount, .b => o .b - o .a
  | _, l => o l

/-- What a rule does not set stays as it is, whatever the operands. -/
theorem operand_apply_of_notMem {rule : Rule} {l : Letter} (h : l ∉ rule.sets) (i : Instruction) :
    (rule.apply i).operand l = i.operand l := by
  cases rule with
  | compare bConst cConst flag => cases cConst <;> cases l <;> first | rfl | simp [sets] at h
  | _ => cases l <;> first | rfl | simp [sets] at h

@[simp] theorem pc_apply (rule : Rule) (i : Instruction) : (rule.apply i).pc = i.pc := by
  cases rule <;> rfl

theorem unbounded_of_notMem {rule : Rule} {l : Letter} (h : l ∉ rule.sets) (o : Letter → Int) (pc : Int) :
    rule.unbounded o pc l = o l := by
  cases rule with
  | compare bConst cConst flag => cases cConst <;> cases l <;> first | rfl | simp [sets] at h
  | _ => cases l <;> first | rfl | simp [sets] at h

/-- The index of an instruction as a word; it saturates like an operand. -/
theorem toInt_position_eq (i : Instruction) : (position i).toInt = nearest i.pc.toNat :=
  toInt_clamp_eq _

/-- The operands of an instruction as integers. -/
def integers (i : Instruction) (l : Letter) : Int := (i.operand l).toInt

section
variable {i : Instruction} (ha : -0x7ffffffe ≤ i.a.toInt) (hpc : i.pc.toNat ≤ 0x7ffffffd)

include ha hpc

/-- The operands that a rule sets are saturated once. -/
theorem toInt_operand_of_mem {rule : Rule} {l : Letter} (hl : l ∈ rule.sets) :
    ((rule.apply i).operand l).toInt = nearest (rule.unbounded (integers i) i.pc.toNat l) := by
  have hposition : (position i).toInt = i.pc.toNat := by
    rw [toInt_position_eq]
    exact nearest_of_le (by omega) (by omega)
  have hmost : i.a.toInt < 2 ^ 31 := i.a.toInt_lt
  -- what is taken away is A, up to two steps further down, or the index, up to two steps further on
  have hdown : ∀ (x : Operand) (n : Int), 0 ≤ n → n ≤ 2 →
      (x.minus (i.a.plus (-n))).toInt = nearest (x.toInt - (i.a.toInt - n)) := by
    intro x n hn hn'
    exact toInt_minus_plus x (by omega) (by omega)
  have hon : ∀ n : Int, 0 ≤ n → n ≤ 2 →
      (i.b.minus ((position i).plus n)).toInt = nearest (i.b.toInt - (i.pc.toNat + n)) := by
    intro n hn hn'
    rw [← hposition]
    exact toInt_minus_plus i.b (by omega) (by omega)
  cases rule with
  | keep => contradiction
  | constIndexB | constB | returnCount | constC =>
      obtain rfl := List.mem_singleton.mp hl
      exact toInt_plus_eq _ _
  | skipNext | clearB =>
      obtain rfl := List.mem_singleton.mp hl
      rfl
  | jump =>
      obtain rfl := List.mem_singleton.mp hl
      exact hon 1 (by omega) (by omega)
  | loopPrep =>
      obtain rfl := List.mem_singleton.mp hl
      exact hon 2 (by omega) (by omega)
  | listCount =>
      obtain rfl := List.mem_singleton.mp hl
      exact toInt_minus_eq _ _
  | countB =>
      obtain rfl := List.mem_singleton.mp hl
      exact hdown i.b 1 (by omega) (by omega)
  | countC =>
      obtain rfl := List.mem_singleton.mp hl
      exact hdown i.c 2 (by omega) (by omega)
  | countBC =>
      cases l with
      | a => contradiction
      | b => exact hdown i.b 1 (by omega) (by omega)
      | c => exact hdown i.c 2 (by omega) (by omega)
  | constBC =>
      cases l with
      | a => contradiction
      | b | c => exact toInt_plus_eq _ _
  | test flag =>
      cases l with
      | a => contradiction
      | b => rfl
      | c => exact (nearest_toInt flag).symm
  | testSet flag =>
      cases l with
      | a => contradiction
      | b => exact (nearest_toInt i.c).symm
      | c => exact (nearest_toInt flag).symm
  | compare bConst cConst flag =>
      cases l with
      | a => exact (nearest_toInt flag).symm
      | b =>
          cases bConst with
          | true => exact toInt_plus_eq _ _
          | false => exact (nearest_toInt i.a).symm
      | c =>
          cases cConst with
          | true => exact toInt_plus_eq _ _
          | false => exact (nearest_toInt i.c).symm

/-- Every operand is what it would be without bounds, as far as a word can hold it. -/
theorem toInt_operand_apply (rule : Rule) (l : Letter) :
    ((rule.apply i).operand l).toInt = nearest (rule.unbounded (integers i) i.pc.toNat l) := by
  by_cases hl : l ∈ rule.sets
  · exact toInt_operand_of_mem ha hpc hl
  · rw [operand_apply_of_notMem hl, unbounded_of_notMem hl]
    exact (nearest_toInt _).symm

end

/-- From an index further down a jump is at most as far. -/
theorem toInt_operand_antitone (rule : Rule) (i : Instruction) {p q : UInt64} (h : p ≤ q) (l : Letter) :
    ((rule.apply { i with pc := q }).operand l).toInt
      ≤ ((rule.apply { i with pc := p }).operand l).toInt := by
  have hpq : (p.toNat : Int) ≤ q.toNat := by exact_mod_cast UInt64.le_iff_toNat_le.mp h
  have hdistance : ∀ n : Int, (i.b.minus ((position { i with pc := q }).plus n)).toInt
      ≤ (i.b.minus ((position { i with pc := p }).plus n)).toInt := by
    intro n
    simp only [toInt_minus_eq, toInt_plus_eq, toInt_position_eq]
    have hplace := nearest_mono hpq
    have hnext := nearest_mono (Int.add_le_add_right hplace n)
    exact nearest_mono (Int.sub_le_sub_left hnext i.b.toInt)
  -- only the distances depend on the index
  by_cases hdistant : (rule = .jump ∨ rule = .loopPrep) ∧ l = .b
  · obtain ⟨rfl | rfl, rfl⟩ := hdistant
    · exact hdistance 1
    · exact hdistance 2
  · have hsame : (rule.apply { i with pc := q }).operand l = (rule.apply { i with pc := p }).operand l := by
      cases rule with
      | jump | loopPrep =>
          cases l with
          | a | c => simp only [apply, Instruction.operand]
          | b => simp at hdistant
      | _ => cases l <;> simp only [apply, Instruction.operand]
    rw [hsame]

/-- If A is not one of the two least words, and the index not one of the two greatest or no word at all, then
every operand is the exact one, clamped once.  What a rule does not set stays as it is, and so does all that
is no operand.  From an index further down a jump is at most as far. -/
theorem apply_saturates (rule : Rule) (i : Instruction) :
    (-0x7ffffffe ≤ i.a.toInt → i.pc.toNat ≤ 0x7ffffffd → ∀ l,
        ((rule.apply i).operand l).toInt = nearest (rule.unbounded (integers i) i.pc.toNat l)) ∧
      (∀ l, l ∉ rule.sets → (rule.apply i).operand l = i.operand l) ∧
      ((rule.apply i).opNum = i.opNum ∧ (rule.apply i).opcode = i.opcode ∧ (rule.apply i).pc = i.pc ∧
        (rule.apply i).dead = i.dead) ∧
      ∀ (p q : UInt64) (l : Letter), p ≤ q →
        ((rule.apply { i with pc := q }).operand l).toInt
          ≤ ((rule.apply { i with pc := p }).operand l).toInt := by
  refine ⟨fun ha hpc l => ?_, fun l hl => ?_, ?_, fun p q l hpq => ?_⟩
  · exact toInt_operand_apply ha hpc rule l
  · exact operand_apply_of_notMem hl i
  · exact ⟨opNum_apply rule i, opcode_apply rule i, pc_apply rule i, dead_apply rule i⟩
  · exact toInt_operand_antitone rule i hpq l

/-- A call whose first register is the least one allowed, with its last argument and result at the ends of the
range: the first count is clamped, the second is exact. -/
theorem apply_saturates_ends :
    let i : Instruction := ⟨7, none, -0x7ffffffe, 0x7fffffff, -0x80000000, 0x7ffffffd, false⟩
    (-0x7ffffffe ≤ i.a.toInt ∧ i.pc.toNat ≤ 0x7ffffffd) ∧
      unbounded (integers i) i.pc.toNat .countBC .b = 0xfffffffe ∧
      ((countBC.apply i).operand .b).toInt = 0x7fffffff ∧ ((countBC.apply i).operand .c).toInt = 0 ∧
      (.a ∉ countBC.sets ∧ (countBC.apply i).operand .a = -0x7ffffffe) ∧
      ((0x7ffffffd : UInt64) ≤ 0xffffffffffffffff ∧
        ((jump.apply { i with pc := 0xffffffffffffffff }).operand .b).toInt
          ≤ ((jump.apply { i with pc := 0x7ffffffd }).operand .b).toInt) := by
  intro i
  have ha : -0x7ffffffe ≤ i.a.toInt := by decide
  have hpc : i.pc.toNat ≤ 0x7ffffffd := by decide
  have hfar : (0x7ffffffd : UInt64) ≤ 0xffffffffffffffff := by decide
  obtain ⟨hexact, hkept, -, -⟩ := apply_saturates countBC i
  obtain ⟨-, -, -, hjump⟩ := apply_saturates jump i
  refine ⟨⟨ha, hpc⟩, by decide, ?_, ?_, ⟨by decide, hkept .a (by decide)⟩, hfar, hjump _ _ .b hfar⟩
  · rw [hexact ha hpc]
    decide
  · rw [hexact ha hpc]
    decide

/-- With A one word lower the step down from it saturates, and the count is one too small. -/
example :
    let i : Instruction := ⟨7, none, -0x7fffffff, 0, -2, 0, false⟩
    unbounded (integers i) 0 .countC .c = 0x7fffffff ∧ (countC.apply i).c.toInt = 0x7ffffffe := by
  decide

end Rule

end Devirt
