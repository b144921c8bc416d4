import Devirt.Bytecode.Prototype
import Devirt.Syntax.Printer
import Devirt.Text.Column

set_option autoImplicit false

/-! # Listings

The text of a tree of prototypes: for each one its header, a line per instruction, and `end`, a
prototype before its children.  An instruction whose opcode is known is followed by a note that says
what it does, in terms of registers `R0`, `R1`, ..., constants and the program counter. -/

namespace Devirt

namespace Listing

open Syntax (commas)

/-! ## Operands -/

def int (x : Operand) : String := toString x.toInt

def reg (r : Operand) : String := "R" ++ int r

/-- The longest list of registers that is written out: the widest count an operand can carry. -/
def maxListed : Nat := 511

/-- Words in a row, from one on. -/
def run (first : Operand) (count : Nat) : List Operand :=
  (List.range count).map fun i : Nat => first.plus i

/-- As many registers as `count` says, from `first` on. -/
def regs (first count : Operand) : String :=
  commas ((run first (min count.toInt.toNat maxListed)).map reg)

/-- The register or constant that a slot names. -/
def slot (p : Prototype) (v : Operand) : String :=
  if Prototype.isConstantSlot v then
    match p.slotConstant? v with
    | some k => k.text
    | none => "K" ++ int (v.plus (-256))
  else reg v

def constant (p : Prototype) (i : Operand) : String :=
  match p.constant? i with
  | some k => k.text
  | none => "K" ++ int i

/-- The name of a global stands without quotes. -/
def global (p : Prototype) (i : Operand) : String :=
  match (p.constant? i).bind Constant.string? with
  | some name => name
  | none => constant p i

/-! ## Notes -/

/-- The arguments of a call from register `a`, `b` being one more than their count. -/
def callArgs (a b : Operand) : String :=
  if b = 0 then reg (a.plus 1) ++ "->top"
  else if b = 1 then ""
  else regs (a.plus 1) (b.plus (-1))

/-- A range of registers whose end is open when the count operand is zero. -/
def openRange (a b : Operand) : String :=
  reg (a.plus 1) ++ "->" ++ if b = 0 then "top" else reg (a.plus b.toInt)

def arithmetic (p : Prototype) (symbol : String) (i : Instruction) : String :=
  reg i.a ++ " = " ++ slot p i.b ++ " " ++ symbol ++ " " ++ slot p i.c

/-- A comparison that skips when it holds; `direct` is its symbol for a zero flag. -/
def comparison (p : Prototype) (direct negated : String) (i : Instruction) : String :=
  "if " ++ slot p i.b ++ " " ++ (if i.a = 0 then direct else negated) ++ " " ++ slot p i.c
    ++ " then PC += 1"

/-- The operands of a concatenation, one register after the other. -/
def concatenation (b c : Operand) : String :=
  let count := (c.toInt - b.toInt + 1).toNat
  " .. ".intercalate ((run b (min count maxListed)).map reg)

/-- Items stored at once by the instruction that fills a table. -/
def itemsPerBatch : Int := 50

/-- Which elements a batch of items is stored in, as far as the instruction itself says. -/
def batchRange (b c : Operand) : String :=
  if c.toInt ≤ 0 then "..."
  else
    let first := (Operand.clamp ((c.plus (-1)).toInt * itemsPerBatch)).plus 1
    int first ++ ".." ++ if b = 0 then "" else int (first.plus (b.plus (-1)).toInt)

/-- What an instruction with a known opcode does. -/
def noteFor (p : Prototype) (op : Opcode) (i : Instruction) : String :=
  let a := i.a
  let b := i.b
  let c := i.c
  match op with
  | .move => reg a ++ " = " ++ reg b
  | .loadK => reg a ++ " = " ++ constant p b
  | .loadBool =>
    reg a ++ " = " ++ (if b = 0 then "false" else "true") ++ if c = 0 then "" else "; PC += 1"
  | .loadNil => if b = a then reg a ++ " = nil" else reg a ++ "->" ++ reg b ++ " = nil"
  | .getUpval => reg a ++ " = UPVALUE_" ++ int b
  | .getGlobal => reg a ++ " = " ++ global p b
  | .getTable => reg a ++ " = " ++ reg b ++ "[" ++ slot p c ++ "]"
  | .setGlobal => global p b ++ " = " ++ reg a
  | .setUpval => "UPVALUE_" ++ int b ++ " = " ++ reg a
  | .setTable => reg a ++ "[" ++ slot p b ++ "] = " ++ slot p c
  | .newTable => reg a ++ " = \x7b\x7d"
  | .selfOp =>
    reg (a.plus 1) ++ " = " ++ reg b ++ "; " ++ reg a ++ " = " ++ reg b ++ "[" ++ slot p c ++ "]"
  | .add => arithmetic p "+" i
  | .sub => arithmetic p "-" i
  | .mul => arithmetic p "*" i
  | .div => arithmetic p "/" i
  | .mod => arithmetic p "%" i
  | .pow => arithmetic p "^" i
  | .unm => reg a ++ " = -" ++ reg b
  | .not => reg a ++ " = not " ++ reg b
  | .len => reg a ++ " = #" ++ reg b
  | .concat => reg a ++ " = " ++ concatenation b c
  | .jmp => "PC += " ++ int b
  | .eq => comparison p "==" "~=" i
  | .lt => comparison p "<" ">" i
  | .le => comparison p "<=" ">=" i
  | .test => "if " ++ (if c = 0 then "not " else "") ++ reg a ++ " then PC += 1"
  | .testSet =>
    "if " ++ (if c = 0 then "not " else "") ++ reg b ++ " then " ++ reg a ++ " = " ++ reg b
      ++ " else PC += 1"
  | .call =>
    let results :=
      if c = 0 then reg a ++ "->top = "
      else if c = 1 then ""
      else regs a (c.plus (-1)) ++ " = "
    results ++ reg a ++ "(" ++ callArgs a b ++ ")"
  | .tailCall => "return " ++ reg a ++ "(" ++ callArgs a b ++ ")"
  | .ret =>
    if b = 0 then "return " ++ reg a ++ "->top"
    else if b = 1 then "return"
    else "return " ++ regs a (b.plus (-1))
  | .forLoop =>
    reg a ++ " += " ++ reg (a.plus 2) ++ "; if loop continues then PC += " ++ int b ++ "; "
      ++ reg (a.plus 3) ++ " = " ++ reg a ++ ";"
  | .forPrep => reg a ++ " -= " ++ reg (a.plus 2) ++ "; PC += " ++ int b
  | .tForLoop =>
    regs (a.plus 3) c ++ " = " ++ reg a ++ "(" ++ reg (a.plus 1) ++ ", " ++ reg (a.plus 2)
      ++ "); if " ++ reg (a.plus 3) ++ " ~= nil then " ++ reg (a.plus 2) ++ " = " ++ reg (a.plus 3)
      ++ " else PC += 1 end"
  | .setList => reg a ++ "[" ++ batchRange b c ++ "] = " ++ openRange a b
  | .close => "close " ++ reg a ++ "->top"
  | .closure =>
    reg a ++ " = " ++
      match p.child? b with
      | some child => child.name
      | none => "closure[" ++ int b ++ "]"
  | .varArg =>
    if b = 0 then reg a ++ "->top = ..."
    else if b = 1 then "..."
    else regs a (b.plus (-1)) ++ " = ..."

/-- The note of an instruction, once its opcode is known. -/
def note (p : Prototype) (i : Instruction) : Option String :=
  i.opcode.map fun op => noteFor p op i

/-! ## Lines -/

/-- An opcode column and three operand columns. -/
def columns (op a b c : String) : String :=
  Text.alignRight 12 op ++ "\t| " ++ Text.alignRight 4 a ++ " | " ++ Text.alignRight 4 b ++ " | "
    ++ Text.alignRight 4 c ++ " |"

def line (p : Prototype) (i : Instruction) : String :=
  match i.opcode with
  | some op => columns op.mnemonic (int i.a) (int i.b) (int i.c) ++ "\t" ++ noteFor p op i
  | none =>
    if i.dead then columns "DEAD" "-" "-" "-"
    else columns (toString i.opNum.toNat) (int i.a) (int i.b) (int i.c)

def lines (p : Prototype) : Nat → List Instruction → String
  | _, [] => ""
  | index, i :: is =>
    "\t[" ++ Text.alignRight 4 (toString index) ++ "]\t" ++ line p i ++ "\n" ++ lines p (index + 1) is

/-- The names of the parameters: the first registers, and `...` for a variadic function. -/
def params (h : Header) : List String :=
  (List.range h.numParams.toNat).map (fun i => "R" ++ toString i)
    ++ if h.isVariadic then ["..."] else []

/-- The lines of one prototype, without its children. -/
def ownLines (p : Prototype) : String :=
  "function " ++ p.name ++ "(" ++ commas (params p.header) ++ ")\n"
    ++ "\t[Slots: " ++ toString p.header.maxStackSize.toNat
    ++ ", Upvalues: " ++ toString p.header.numUpvalues.toNat
    ++ ", Constants: " ++ toString p.constants.length ++ "]\n"
    ++ lines p 0 p.instructions ++ "end\n"

mutual

def tree : Prototype → String
  | .mk h is ks ps => ownLines (.mk h is ks ps) ++ trees ps

def trees : List Prototype → String
  | [] => ""
  | p :: ps => tree p ++ trees ps

end

/-- The line every listing begins with. -/
def banner : String := "-- Disassembled with unmoon (MoonSec V3)"

end Listing

/-- The listing of a tree. -/
def Prototype.listing (root : Prototype) : String := Listing.banner ++ "\n" ++ Listing.tree root

end Devirt
