import Devirt.Bytecode.Opcode
import Devirt.Bytecode.Operand
import Devirt.Number.Numeral
import Devirt.Text.Quoted

set_option autoImplicit false

/-! # Prototypes

The compiled form of a function: its instructions, its constants and the prototypes nested in it.

An instruction carries the number that the obfuscator drew for its opcode, and the canonical opcode
once that is known.  `pc` is what the input says its index is; `renumber` sets it to the real one.

A *slot* is an operand that names a register up to 255 and a constant from 256 on. -/

namespace Devirt

inductive Constant where
  | nil
  | bool (value : Bool)
  | number (value : Double)
  | string (value : String)
  deriving DecidableEq, Inhabited

namespace Constant

/-- The literal of a constant. -/
def text : Constant → String
  | nil => "nil"
  | bool b => if b then "true" else "false"
  | number x => x.numeral
  | string s => Text.quote s

def string? : Constant → Option String
  | string s => some s
  | _ => none

end Constant

structure Instruction where
  /-- The drawn number of the opcode. -/
  opNum : UInt32
  opcode : Option Opcode
  a : Operand
  b : Operand
  c : Operand
  pc : UInt64
  /-- Never executed; it only takes up its place. -/
  dead : Bool
  deriving DecidableEq, Inhabited

namespace Instruction

/-- An instruction whose opcode is known. -/
def resolved (op : Opcode) (a b c : Operand) : Instruction :=
  ⟨UInt32.ofNat op.number, some op, a, b, c, 0, false⟩

def deadSlot : Instruction := ⟨0, none, 0, 0, 0, 0, true⟩

end Instruction

structure Header where
  name : String
  numParams : UInt8
  isVararg : UInt8
  maxStackSize : UInt8
  numUpvalues : UInt8
  deriving DecidableEq, Inhabited

namespace Header

/-- Declared with `...` among its parameters. -/
def isVariadic (h : Header) : Bool := h.isVararg == 2

end Header

inductive Prototype where
  | mk (header : Header) (instructions : List Instruction) (constants : List Constant)
    (children : List Prototype)

namespace Prototype

def header : Prototype → Header
  | mk h _ _ _ => h

def instructions : Prototype → List Instruction
  | mk _ is _ _ => is

def constants : Prototype → List Constant
  | mk _ _ ks _ => ks

def children : Prototype → List Prototype
  | mk _ _ _ ps => ps

def name (p : Prototype) : String := p.header.name

/-- A prototype with nothing in it. -/
def empty (name : String) : Prototype := mk ⟨name, 0, 0, 0, 0⟩ [] [] []

instance : Inhabited Prototype := ⟨empty ""⟩

def setInstructions (p : Prototype) (is : List Instruction) : Prototype :=
  mk p.header is p.constants p.children

/-- Appends an instruction, which takes its index as `pc`. -/
def push (p : Prototype) (i : Instruction) : Prototype :=
  p.setInstructions
    (p.instructions ++ [{ i with pc := UInt64.ofNat p.instructions.length }])

def addConstant (p : Prototype) (k : Constant) : Prototype :=
  mk p.header p.instructions (p.constants ++ [k]) p.children

def addChild (p child : Prototype) : Prototype :=
  mk p.header p.instructions p.constants (p.children ++ [child])

/-! ## Lookups -/

/-- The item at an operand; a negative one finds nothing. -/
def at? {α : Type} (items : List α) (i : Operand) : Option α :=
  if i.toInt < 0 then none else items[i.toInt.toNat]?

def constant? (p : Prototype) (i : Operand) : Option Constant := at? p.constants i

def child? (p : Prototype) (i : Operand) : Option Prototype := at? p.children i

/-- Whether a slot names a constant. -/
def isConstantSlot (v : Operand) : Bool := 256 ≤ v.toInt

/-- The constant that a slot names. -/
def slotConstant? (p : Prototype) (v : Operand) : Option Constant :=
  if isConstantSlot v then p.constant? (v.plus (-256)) else none

/-! ## The whole tree -/

/-- Instructions with their indices as `pc`, counted from `start`. -/
def number (start : Nat) : List Instruction → List Instruction
  | [] => []
  | i :: is => { i with pc := UInt64.ofNat start } :: number (start + 1) is

mutual

/-- Sets the `pc` of every instruction of the tree to its index. -/
def renumber : Prototype → Prototype
  | mk h is ks ps => mk h (number 0 is) ks (renumberAll ps)

def renumberAll : List Prototype → List Prototype
  | [] => []
  | p :: ps => renumber p :: renumberAll ps

end

mutual

/-- How many prototypes the tree has, the root included. -/
def count : Prototype → Nat
  | mk _ _ _ ps => 1 + countAll ps

def countAll : List Prototype → Nat
  | [] => 0
  | p :: ps => count p + countAll ps

end

end Prototype

end Devirt
