import Devirt.Document.Tree
import Devirt.Recovery

set_option autoImplicit false

/-! # Chunks as documents

Instructions, constants, prototypes and chunks, with the options and mappings that go with them.  All
fields of an instruction may be absent, and all of a prototype but its name.  A constant is a bare
value; the handler of an opcode number is a fingerprint, as a bare string, or a block. -/

namespace Devirt.Document

/-! ## Instructions and constants -/

def readOpcode (room : Nat) (j : Json) : Option Opcode := readTag Opcode.all Opcode.name room j

def readInstruction : Nat → Json → Option Instruction
  | 0, _ => none
  | room + 1, j =>
    match j.fields? ["op", "opcode", "a", "b", "c", "pc", "dead"] with
    | some [op, opcode, a, b, c, pc, dead] => do
      return ⟨← defaulted 0 Json.uint32? op, ← optional (readOpcode room) opcode,
        ← defaulted 0 Json.int32? a, ← defaulted 0 Json.int32? b, ← defaulted 0 Json.int32? c,
        ← defaulted 0 Json.uint64? pc, ← defaulted false Json.bool? dead⟩
    | _ => none

def writeInstruction (i : Instruction) : Json :=
  .record
    [("op", .int i.opNum.toNat),
     ("opcode", match i.opcode with | some op => .string op.name | none => .null),
     ("a", .int i.a.toInt), ("b", .int i.b.toInt), ("c", .int i.c.toInt),
     ("pc", .int i.pc.toNat), ("dead", .bool i.dead)]

def readConstant : Json → Option Constant
  | .null => some .nil
  | .bool b => some (.bool b)
  | .string s => some (.string s)
  | j => j.number?.map .number

def writeConstant : Constant → Json
  | .nil => .null
  | .bool b => .bool b
  | .number x => .real x
  | .string s => .string s

/-! ## Prototypes -/

mutual

def writePrototype : Prototype → Json
  | .mk h is ks ps =>
    .record
      [("name", .string h.name), ("num_params", .int h.numParams.toNat),
       ("is_vararg", .int h.isVararg.toNat), ("max_stack_size", .int h.maxStackSize.toNat),
       ("num_upvalues", .int h.numUpvalues.toNat),
       ("instructions", .array (is.map writeInstruction)),
       ("constants", .array (ks.map writeConstant)), ("functions", .array (writePrototypes ps))]

def writePrototypes : List Prototype → List Json
  | [] => []
  | p :: ps => writePrototype p :: writePrototypes ps

end

/-- An array, which opens a bracket, of items that are read inside it. -/
def arrayOf {α : Type} (read : Nat → Json → Option α) : Nat → Json → Option (List α)
  | 0, _ => none
  | room + 1, j => listOf (read room) j

mutual

def readPrototype : Nat → Json → Option Prototype
  | 0, _ => none
  | room + 1, j =>
    match j.fields? ["name", "num_params", "is_vararg", "max_stack_size", "num_upvalues",
        "instructions", "constants", "functions"] with
    | some [some name, numParams, isVararg, maxStackSize, numUpvalues, is, ks, ps] => do
      let header : Header :=
        ⟨← name.string?, ← defaulted 0 Json.uint8? numParams, ← defaulted 0 Json.uint8? isVararg,
          ← defaulted 0 Json.uint8? maxStackSize, ← defaulted 0 Json.uint8? numUpvalues⟩
      return .mk header (← defaulted [] (arrayOf readInstruction room) is)
        (← defaulted [] (arrayOf (fun _ => readConstant) room) ks)
        (← defaulted [] (fun ps => readPrototypes room ps) ps)
    | _ => none

def readPrototypes : Nat → Json → Option (List Prototype)
  | 0, _ => none
  | room + 1, j => listOf (fun p => readPrototype room p) j

end

/-! ## Handlers -/

/-- An opcode number as a key: decimal digits without sign or leading zeros, and no escapes. -/
def readOpNum (key : String) (plain : Bool) : Option UInt32 :=
  match Indirection.digits? key.toList with
  | some n =>
    if plain ∧ n ≤ 0xffffffff ∧ (toString n).length = key.length then some (UInt32.ofNat n) else none
  | none => none

/-- A handler.  All of it must be readable, even what a block passes over. -/
def readHandler (room : Nat) : Json → Option Handler
  | .string s => some (.fingerprint s)
  | j => if j.fits room then (readBlock room j).map .source else none

def writeHandler : Handler → Json
  | .fingerprint s => .string s
  | .source b => writeBlock b

/-- Puts a handler into an ascending list; an equal number is overwritten. -/
def putHandler (n : UInt32) (h : Handler) : List (UInt32 × Handler) → List (UInt32 × Handler)
  | [] => [(n, h)]
  | (m, h') :: rest =>
    if m = n then (n, h) :: rest
    else if n < m then (n, h) :: (m, h') :: rest
    else (m, h') :: putHandler n h rest

def readHandlers : Nat → Json → Option (List (UInt32 × Handler))
  | room + 1, .object members =>
    members.foldlM (fun hs m =>
      match m with
      | .mk key plain v => do return putHandler (← readOpNum key plain) (← readHandler room v) hs) []
  | _, _ => none

def writeHandlers (hs : List (UInt32 × Handler)) : Json :=
  .record (hs.map fun h => (toString h.1.toNat, writeHandler h.2))

/-! ## Chunks -/

def readChunk : Nat → Json → Option Chunk
  | 0, _ => none
  | room + 1, j =>
    match j.fields? ["handlers", "root"] with
    | some [handlers, some root] => do
      return ⟨← defaulted [] (readHandlers room) handlers, ← readPrototype room root⟩
    | _ => none

def writeChunk (c : Chunk) : Json :=
  .record [("handlers", writeHandlers c.handlers), ("root", writePrototype c.root)]

/-! ## Options and mappings -/

def readOptions : Nat → Json → Option Options
  | 0, _ => none
  | _ + 1, j =>
    match j.fields? ["temp_prefix", "register_helper", "max_iterations"] with
    | some [tempPrefix, registerHelper, maxIterations] => do
      return ⟨← defaulted Options.standard.tempPrefix Json.string? tempPrefix,
        ← defaulted Options.standard.registerHelper Json.string? registerHelper,
        ← defaulted Options.standard.maxIterations
          (fun j => j.uint64?.map UInt64.toNat) maxIterations⟩
    | _ => none

/-- The paths as given; of two with one key the later counts. -/
def readPaths : Nat → Json → Option Paths
  | room + 1, .object members =>
    members.foldlM (fun (d : Paths) m => do return d.insert m.key (← strings room m.value)) .empty
  | _, _ => none

end Devirt.Document

namespace Devirt

open Document

/-! ## Whole documents -/

def Block.ofJson? (j : Json) : Option Block := readBlock Json.maxNesting j

def Block.toJson (b : Block) : Json := writeBlock b

def Prototype.ofJson? (j : Json) : Option Prototype := readPrototype Json.maxNesting j

def Prototype.toJson (p : Prototype) : Json := writePrototype p

/-- A chunk whose instructions carry their indices. -/
def Chunk.ofJson? (j : Json) : Option Chunk :=
  (readChunk Json.maxNesting j).map fun c => { c with root := c.root.renumber }

def Chunk.toJson (c : Chunk) : Json := writeChunk c

def Options.ofJson? (j : Json) : Option Options := readOptions Json.maxNesting j

/-- The paths as given. -/
def Paths.ofJson? (j : Json) : Option Paths := readPaths Json.maxNesting j

end Devirt
