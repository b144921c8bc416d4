set_option autoImplicit false

/-! # Opcodes

The instruction set of the virtual machine whose code is recovered, in the order of its numbering.  An
opcode has two spellings: a mnemonic in capitals, for listings, and a name for documents. -/

namespace Devirt

inductive Opcode where
  | move | loadK | loadBool | loadNil | getUpval | getGlobal
  | getTable | setGlobal | setUpval | setTable | newTable | selfOp
  | add | sub | mul | div | mod | pow
  | unm | not | len | concat | jmp | eq
  | lt | le | test | testSet | call | tailCall
  | ret | forLoop | forPrep | tForLoop | setList | close
  | closure | varArg
  deriving DecidableEq, Inhabited

namespace Opcode

/-- All opcodes, by number. -/
def all : List Opcode :=
  [move, loadK, loadBool, loadNil, getUpval, getGlobal, getTable, setGlobal, setUpval, setTable,
   newTable, selfOp, add, sub, mul, div, mod, pow, unm, not, len, concat, jmp, eq, lt, le, test,
   testSet, call, tailCall, ret, forLoop, forPrep, tForLoop, setList, close, closure, varArg]

/-- The canonical number. -/
def number (op : Opcode) : Nat := op.ctorIdx

def ofNumber? (n : Nat) : Option Opcode := all[n]?

def mnemonic : Opcode → String
  | move => "MOVE"
  | loadK => "LOADK"
  | loadBool => "LOADBOOL"
  | loadNil => "LOADNIL"
  | getUpval => "GETUPVAL"
  | getGlobal => "GETGLOBAL"
  | getTable => "GETTABLE"
  | setGlobal => "SETGLOBAL"
  | setUpval => "SETUPVAL"
  | setTable => "SETTABLE"
  | newTable => "NEWTABLE"
  | selfOp => "SELF"
  | add => "ADD"
  | sub => "SUB"
  | mul => "MUL"
  | div => "DIV"
  | mod => "MOD"
  | pow => "POW"
  | unm => "UNM"
  | not => "NOT"
  | len => "LEN"
  | concat => "CONCAT"
  | jmp => "JMP"
  | eq => "EQ"
  | lt => "LT"
  | le => "LE"
  | test => "TEST"
  | testSet => "TESTSET"
  | call => "CALL"
  | tailCall => "TAILCALL"
  | ret => "RETURN"
  | forLoop => "FORLOOP"
  | forPrep => "FORPREP"
  | tForLoop => "TFORLOOP"
  | setList => "SETLIST"
  | close => "CLOSE"
  | closure => "CLOSURE"
  | varArg => "VARARG"

/-- The spelling in documents. -/
def name : Opcode → String
  | move => "Move"
  | loadK => "LoadK"
  | loadBool => "LoadBool"
  | loadNil => "LoadNil"
  | getUpval => "GetUpval"
  | getGlobal => "GetGlobal"
  | getTable => "GetTable"
  | setGlobal => "SetGlobal"
  | setUpval => "SetUpval"
  | setTable => "SetTable"
  | newTable => "NewTable"
  | selfOp => "SelfOp"
  | add => "Add"
  | sub => "Sub"
  | mul => "Mul"
  | div => "Div"
  | mod => "Mod"
  | pow => "Pow"
  | unm => "Unm"
  | not => "Not"
  | len => "Len"
  | concat => "Concat"
  | jmp => "Jmp"
  | eq => "Eq"
  | lt => "Lt"
  | le => "Le"
  | test => "Test"
  | testSet => "TestSet"
  | call => "Call"
  | tailCall => "TailCall"
  | ret => "Return"
  | forLoop => "ForLoop"
  | forPrep => "ForPrep"
  | tForLoop => "TForLoop"
  | setList => "SetList"
  | close => "Close"
  | closure => "Closure"
  | varArg => "VarArg"

/-- How the operands of an opcode are laid out in its word. -/
inductive Format where
  /-- Three operands: A, B and C. -/
  | abc
  /-- Two operands, the second a wide index. -/
  | abx
  /-- Two operands, the second a wide signed offset. -/
  | asbx
  deriving DecidableEq

def format : Opcode → Format
  | loadK | getGlobal | setGlobal | closure => .abx
  | jmp | forLoop | forPrep => .asbx
  | _ => .abc

/-! ## Small facts -/

theorem ofNumber?_number (op : Opcode) : ofNumber? op.number = some op := by
  cases op <;> rfl

theorem number_lt (op : Opcode) : op.number < 38 := by
  cases op <;> decide

end Opcode

end Devirt
