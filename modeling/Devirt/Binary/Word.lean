import Devirt.Bytecode.Prototype

set_option autoImplicit false

/-! # Instruction words

An instruction is packed into 32 bits: the opcode in the lowest 6, then A in 8 bits, then either C and B
in 9 bits each, or one wide operand in 18 bits, which is signed with an offset of 131071 for jumps. -/

namespace Devirt

/-- Why an instruction cannot be packed, and where it stands. -/
inductive PackError where
  | unresolved (function : String) (index : Nat) (opNum : UInt32)
  | outOfRange (function : String) (index : Nat) (operand : Char) (value : Operand)
  deriving DecidableEq

namespace PackError

def message : PackError → String
  | unresolved f i n => "unresolved opcode " ++ toString n.toNat ++ " at " ++ f ++ "[" ++ toString i ++ "]"
  | outOfRange f i o v =>
    "operand " ++ o.toString ++ "=" ++ toString v.toInt ++ " out of range at " ++ f ++ "["
      ++ toString i ++ "]"

end PackError

namespace Binary

def maxA : Int := 255
def maxB : Int := 511
def maxC : Int := 511
def maxBx : Int := 262143

/-- What is added to a signed operand. -/
def bias : Int := 131071

/-- A field: the operand with `offset` added, if that lies between zero and `most`. -/
def field (operand : Char) (value : Operand) (offset most : Int) (function : String) (index : Nat) :
    Except PackError Nat :=
  let n := value.toInt + offset
  if 0 ≤ n ∧ n ≤ most then .ok n.toNat else .error (.outOfRange function index operand value)

def packABC (op a b c : Nat) : UInt32 := UInt32.ofNat (op + a * 64 + c * 16384 + b * 8388608)

def packABx (op a bx : Nat) : UInt32 := UInt32.ofNat (op + a * 64 + bx * 16384)

/-- The word of an instruction; a dead one becomes a jump to the next. -/
def pack (function : String) (index : Nat) (i : Instruction) : Except PackError UInt32 :=
  if i.dead then .ok (packABx Opcode.jmp.number 0 bias.toNat)
  else
    match i.opcode with
    | none => .error (.unresolved function index i.opNum)
    | some op => do
      let a ← field 'A' i.a 0 maxA function index
      match op.format with
      | .abx =>
        let bx ← field 'B' i.b 0 maxBx function index
        return packABx op.number a bx
      | .asbx =>
        let bx ← field 'B' i.b bias maxBx function index
        return packABx op.number a bx
      | .abc =>
        let b ← field 'B' i.b 0 maxB function index
        let c ← field 'C' i.c 0 maxC function index
        return packABC op.number a b c

end Binary

end Devirt
