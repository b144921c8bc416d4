import Devirt.Binary.Word

set_option autoImplicit false

/-! # Binary images

A tree of prototypes is written as a Lua 5.1 binary chunk: little-endian, with 4-byte integers and
instructions, 8-byte sizes and 8-byte floating-point numbers.  No debug information is written.  Only
the root has a source name, `=` followed by its own. -/

namespace Devirt

namespace Binary

/-- The `n` lowest bytes of a number, lowest first; the rest is dropped. -/
def littleEndian : Nat → Nat → List UInt8
  | 0, _ => []
  | n + 1, x => UInt8.ofNat x :: littleEndian n (x / 256)

def int (n : Nat) : List UInt8 := littleEndian 4 n

def size (n : Nat) : List UInt8 := littleEndian 8 n

def header : List UInt8 :=
  [0x1b, 0x4c, 0x75, 0x61, 0x51, 0, 1, 4, 8, 4, 8, 0]

/-- A string with the count of its bytes, the closing zero byte included. -/
def string (s : String) : List UInt8 :=
  let bytes := s.toUTF8.toList
  size (bytes.length + 1) ++ bytes ++ [0]

/-- The name of the source; a length of zero says that there is none. -/
def source : Option String → List UInt8
  | none => size 0
  | some s => string s

def constant : Constant → List UInt8
  | .nil => [0]
  | .bool b => [1, if b then 1 else 0]
  | .number x => 3 :: littleEndian 8 x.bits.toNat
  | .string s => 4 :: string s

def constants (ks : List Constant) : List UInt8 := int ks.length ++ ks.flatMap constant

/-- The words of the instructions from an index on. -/
def words (function : String) : Nat → List Instruction → Except PackError (List UInt8)
  | _, [] => .ok []
  | index, i :: is => do
    let word ← pack function index i
    let rest ← words function (index + 1) is
    return int word.toNat ++ rest

mutual

/-- A prototype: where it comes from, its sizes, code, constants and children, and three empty lists
for the debug information. -/
def prototype (name : Option String) : Prototype → Except PackError (List UInt8)
  | .mk h is ks ps => do
    let code ← words h.name 0 is
    let children ← prototypes ps
    return source name ++ int 0 ++ int 0
      ++ [h.numUpvalues, h.numParams, h.isVararg, h.maxStackSize]
      ++ int is.length ++ code ++ constants ks ++ int ps.length ++ children
      ++ int 0 ++ int 0 ++ int 0

/-- Prototypes one after the other, none of them with a source name. -/
def prototypes : List Prototype → Except PackError (List UInt8)
  | [] => .ok []
  | p :: ps => do
    let bytes ← prototype none p
    let rest ← prototypes ps
    return bytes ++ rest

end

end Binary

/-- The binary image of a tree. -/
def Prototype.image (root : Prototype) : Except PackError (List UInt8) := do
  let bytes ← Binary.prototype (some ("=" ++ root.name)) root
  return Binary.header ++ bytes

end Devirt
