import Devirt.Bytecode.Prototype

set_option autoImplicit false

/-! # Handler shapes

A *shape* says which opcode a handler implements, given the fingerprint of its body, and by which rule
the operands the obfuscator stored are brought back to the form the opcode wants.  Every rule leaves
register-or-constant slots with constants from 256 on, and jumps as offsets from the instruction after
the jump. -/

namespace Devirt

/-- How the operands of an instruction are put right. -/
inductive Rule where
  | keep
  /-- B indexes the constants from one. -/
  | constIndexB
  /-- B is a constant, counted from one. -/
  | constB
  | constC
  | constBC
  /-- The handler always skips the next instruction. -/
  | skipNext
  /-- B is the index of the target. -/
  | jump
  /-- B is the index after the target. -/
  | loopPrep
  /-- The left operand is in A and the jump in B; `flag` is what A must become. -/
  | compare (bConst cConst : Bool) (flag : Operand)
  | test (flag : Operand)
  | testSet (flag : Operand)
  /-- B is the last argument's register. -/
  | countB
  /-- C is the last result's register. -/
  | countC
  | countBC
  /-- B is one less than the number of results. -/
  | returnCount
  /-- B is the last item's register. -/
  | listCount
  | clearB
  deriving DecidableEq, Inhabited

namespace Rule

/-- The slot of a constant that is counted from one. -/
def constantSlot (v : Operand) : Operand := v.plus 255

theorem toInt_constantSlot {v : Operand} (lo : 0 ≤ v.toInt) (hi : v.toInt + 255 ≤ 0x7fffffff) :
    (constantSlot v).toInt = v.toInt + 255 :=
  Operand.toInt_clamp (by omega) hi

/-- The slot of an operand that is a constant or a register. -/
def slot (isConstant : Bool) (v : Operand) : Operand :=
  if isConstant then constantSlot v else v

/-- The index of an instruction as a word; one that has no word counts as the greatest. -/
def position (i : Instruction) : Operand := .clamp i.pc.toNat

/-- The instruction with its operands put right. -/
def apply (rule : Rule) (i : Instruction) : Instruction :=
  match rule with
  | keep => i
  | constIndexB => { i with b := i.b.plus (-1) }
  | constB => { i with b := constantSlot i.b }
  | constC => { i with c := constantSlot i.c }
  | constBC => { i with b := constantSlot i.b, c := constantSlot i.c }
  | skipNext => { i with c := 1 }
  | jump => { i with b := i.b.minus ((position i).plus 1) }
  | loopPrep => { i with b := i.b.minus ((position i).plus 2) }
  | compare bConst cConst flag => { i with a := flag, b := slot bConst i.a, c := slot cConst i.c }
  | test flag => { i with b := 0, c := flag }
  | testSet flag => { i with b := i.c, c := flag }
  | countB => { i with b := i.b.minus (i.a.plus (-1)) }
  | countC => { i with c := i.c.minus (i.a.plus (-2)) }
  | countBC => { i with b := i.b.minus (i.a.plus (-1)), c := i.c.minus (i.a.plus (-2)) }
  | returnCount => { i with b := i.b.plus 2 }
  | listCount => { i with b := i.b.minus i.a }
  | clearB => { i with b := 0 }

/-- Which of B and C the rule proves to be constants. -/
def constantSlots : Rule → Bool × Bool
  | constB => (true, false)
  | constC => (false, true)
  | constBC => (true, true)
  | compare bConst cConst _ => (bConst, cConst)
  | _ => (false, false)

def flagText (flag : Operand) : String := toString flag.toInt

def boolText (b : Bool) : String := if b then "true" else "false"

/-- The rule as it is shown in a catalog. -/
def text : Rule → String
  | keep => "None"
  | constIndexB => "ConstIndexB"
  | constB => "ConstB"
  | constC => "ConstC"
  | constBC => "ConstBC"
  | skipNext => "SkipNext"
  | jump => "Jump"
  | loopPrep => "LoopPrep"
  | compare bConst cConst flag =>
    "Compare \x7b b_const: " ++ boolText bConst ++ ", c_const: " ++ boolText cConst
      ++ ", flag: " ++ flagText flag ++ " \x7d"
  | test flag => "Test \x7b flag: " ++ flagText flag ++ " \x7d"
  | testSet flag => "TestSet \x7b flag: " ++ flagText flag ++ " \x7d"
  | countB => "CountB"
  | countC => "CountC"
  | countBC => "CountBC"
  | returnCount => "ReturnCount"
  | listCount => "ListCount"
  | clearB => "ClearB"

end Rule

structure Shape where
  fingerprint : String
  op : Opcode
  rule : Rule
  deriving DecidableEq, Inhabited

/-- Shapes in order; a fingerprint given twice means its last shape. -/
structure Catalog where
  shapes : List Shape

namespace Catalog

def lookup (c : Catalog) (fingerprint : String) : Option Shape :=
  c.shapes.reverse.find? fun s => s.fingerprint == fingerprint

/-- The instruction with the opcode and operands of the shape, if the fingerprint has one. -/
def resolve (c : Catalog) (fingerprint : String) (i : Instruction) : Option Instruction :=
  (c.lookup fingerprint).map fun s => s.rule.apply { i with opcode := some s.op }

def shapesFor (c : Catalog) (op : Opcode) : List Shape := c.shapes.filter fun s => s.op == op

def size (c : Catalog) : Nat := (c.shapes.map (·.fingerprint)).eraseDups.length

end Catalog

end Devirt
