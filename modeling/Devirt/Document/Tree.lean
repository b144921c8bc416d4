import Devirt.Document.Field
import Devirt.Syntax.Tree

set_option autoImplicit false

/-! # Trees as documents

A node is an object whose one key is its kind; nodes without content are plain strings.  `writeExpr`
and its companions give the document of a tree with all fields in order, absent ones as null;
`readExpr` and its companions read it back. -/

namespace Devirt.Document

/-! ## Operators -/

def binaryTag : BinaryOp → String
  | .add => "Add"
  | .sub => "Sub"
  | .mul => "Mul"
  | .div => "Div"
  | .mod => "Mod"
  | .pow => "Pow"
  | .concat => "Concat"
  | .eq => "Eq"
  | .ne => "Ne"
  | .lt => "Lt"
  | .gt => "Gt"
  | .le => "Le"
  | .ge => "Ge"
  | .and => "And"
  | .or => "Or"

def unaryTag : UnaryOp → String
  | .neg => "Neg"
  | .not => "Not"
  | .len => "Len"

/-- Reads a constructor without content; one written as an object opens a bracket. -/
def readTag {α : Type} (all : List α) (tag : α → String) : Nat → Json → Option α
  | 0, .object _ => none
  | _, j =>
    match unitTag? j with
    | some s => all.find? fun x => tag x == s
    | none => none

def readBinaryOp (room : Nat) (j : Json) : Option BinaryOp := readTag BinaryOp.all binaryTag room j

def readUnaryOp (room : Nat) (j : Json) : Option UnaryOp := readTag UnaryOp.all unaryTag room j

/-! ## Writing -/

mutual

def writeExpr : Expr → Json
  | .nil => .string "Nil"
  | .bool b => tagged "Bool" (.bool b)
  | .number x => tagged "Number" (.real x)
  | .string s => tagged "String" (.string s)
  | .vararg => .string "Vararg"
  | .name n => tagged "Name" (.string n)
  | .binary op l r =>
    tagged "Binary"
      (.record [("op", .string (binaryTag op)), ("left", writeExpr l), ("right", writeExpr r)])
  | .unary op e =>
    tagged "Unary" (.record [("op", .string (unaryTag op)), ("operand", writeExpr e)])
  | .member o f => tagged "Member" (.record [("object", writeExpr o), ("field", .string f)])
  | .index t k => tagged "Index" (.record [("table", writeExpr t), ("key", writeExpr k)])
  | .call f args => tagged "Call" (.record [("func", writeExpr f), ("args", .array (writeExprs args))])
  | .table entries => tagged "Table" (.array (writeEntries entries))
  | .function params variadic body =>
    tagged "Function"
      (.record
        [("params", names params), ("is_vararg", .bool variadic),
         ("body", .record [("stmts", .array (writeStmts body))])])

def writeExprs : List Expr → List Json
  | [] => []
  | e :: es => writeExpr e :: writeExprs es

def writeEntries : List Entry → List Json
  | [] => []
  | .positional v :: es => .record [("key", .null), ("value", writeExpr v)] :: writeEntries es
  | .keyed k v :: es => .record [("key", writeExpr k), ("value", writeExpr v)] :: writeEntries es

def writeStmt : Stmt → Json
  | .declare id ns values =>
    tagged "Local"
      (.record
        [("id", .int id.toNat), ("names", names ns), ("values", .array (writeExprs values))])
  | .assign id targets values =>
    tagged "Assign"
      (.record
        [("id", .int id.toNat), ("targets", .array (writeExprs targets)),
         ("values", .array (writeExprs values))])
  | .call f args => tagged "Call" (.record [("func", writeExpr f), ("args", .array (writeExprs args))])
  | .scope body => tagged "Do" (.record [("stmts", .array (writeStmts body))])
  | .branch clauses none =>
    tagged "If" (.record [("clauses", .array (writeClauses clauses)), ("else_body", .null)])
  | .branch clauses (some body) =>
    tagged "If"
      (.record
        [("clauses", .array (writeClauses clauses)),
         ("else_body", .record [("stmts", .array (writeStmts body))])])
  | .whileLoop cond body =>
    tagged "While"
      (.record [("cond", writeExpr cond), ("body", .record [("stmts", .array (writeStmts body))])])
  | .repeatLoop body cond =>
    tagged "Repeat"
      (.record [("body", .record [("stmts", .array (writeStmts body))]), ("cond", writeExpr cond)])
  | .numericFor var start limit none body =>
    tagged "NumericFor"
      (.record
        [("var", .string var), ("start", writeExpr start), ("limit", writeExpr limit),
         ("step", .null), ("body", .record [("stmts", .array (writeStmts body))])])
  | .numericFor var start limit (some step) body =>
    tagged "NumericFor"
      (.record
        [("var", .string var), ("start", writeExpr start), ("limit", writeExpr limit),
         ("step", writeExpr step), ("body", .record [("stmts", .array (writeStmts body))])])
  | .genericFor ns exprs body =>
    tagged "GenericFor"
      (.record
        [("names", names ns), ("exprs", .array (writeExprs exprs)),
         ("body", .record [("stmts", .array (writeStmts body))])])
  | .ret values => tagged "Return" (.array (writeExprs values))
  | .brk => .string "Break"

def writeStmts : List Stmt → List Json
  | [] => []
  | s :: ss => writeStmt s :: writeStmts ss

def writeClauses : List Clause → List Json
  | [] => []
  | .mk cond body :: cs =>
    .record [("cond", writeExpr cond), ("body", .record [("stmts", .array (writeStmts body))])]
      :: writeClauses cs

end

def writeBlock (b : Block) : Json := .record [("stmts", .array (writeStmts b))]

/-! ## Reading -/

mutual

def readExpr : Nat → Json → Option Expr
  | _, .string "Nil" => some .nil
  | _, .string "Vararg" => some .vararg
  | room + 1, .object [.mk tag _ content] => readExprContent room tag content
  | _, _ => none

/-- What the content of an expression's tag says. -/
def readExprContent : Nat → String → Json → Option Expr
  | _, "Nil", .null => some .nil
  | _, "Vararg", .null => some .vararg
  | _, "Bool", j => j.bool?.map .bool
  | _, "Number", j => j.number?.map .number
  | _, "String", j => j.string?.map .string
  | _, "Name", j => j.string?.map .name
  | room + 1, "Binary", j =>
    match j.fields? ["op", "left", "right"] with
    | some [some op, some l, some r] => do
      return .binary (← readBinaryOp room op) (← readExpr room l) (← readExpr room r)
    | _ => none
  | room + 1, "Unary", j =>
    match j.fields? ["op", "operand"] with
    | some [some op, some e] => do
      return .unary (← readUnaryOp room op) (← readExpr room e)
    | _ => none
  | room + 1, "Member", j =>
    match j.fields? ["object", "field"] with
    | some [some o, some f] => do
      return .member (← readExpr room o) (← f.string?)
    | _ => none
  | room + 1, "Index", j =>
    match j.fields? ["table", "key"] with
    | some [some t, some k] => do
      return .index (← readExpr room t) (← readExpr room k)
    | _ => none
  | room + 1, "Call", j =>
    match j.fields? ["func", "args"] with
    | some [some f, some args] => do
      return .call (← readExpr room f) (← readExprs room args)
    | _ => none
  | room + 1, "Table", j => (listOf (fun e => readEntry room e) j).map .table
  | room + 1, "Function", j =>
    match j.fields? ["params", "is_vararg", "body"] with
    | some [some params, variadic, some body] => do
      return .function (← strings room params) (← defaulted false Json.bool? variadic)
        (← readBlock room body)
    | _ => none
  | _, _, _ => none

def readExprs : Nat → Json → Option (List Expr)
  | 0, _ => none
  | room + 1, j => listOf (fun e => readExpr room e) j

def readEntry : Nat → Json → Option Entry
  | 0, _ => none
  | room + 1, j =>
    match j.fields? ["key", "value"] with
    | some [key, some v] => do
      let key ← optional (fun k => readExpr room k) key
      let v ← readExpr room v
      return match key with
        | none => .positional v
        | some k => .keyed k v
    | _ => none

def readBlock : Nat → Json → Option Block
  | 0, _ => none
  | room + 1, j =>
    match j.fields? ["stmts"] with
    | some [some stmts] => readStmts room stmts
    | _ => none

def readStmts : Nat → Json → Option (List Stmt)
  | 0, _ => none
  | room + 1, j => listOf (fun s => readStmt room s) j

def readStmt : Nat → Json → Option Stmt
  | _, .string "Break" => some .brk
  | room + 1, .object [.mk tag _ content] => readStmtContent room tag content
  | _, _ => none

/-- What the content of a statement's tag says. -/
def readStmtContent : Nat → String → Json → Option Stmt
  | _, "Break", .null => some .brk
  | room + 1, "Do", j =>
    match j.fields? ["stmts"] with
    | some [some stmts] => (readStmts room stmts).map .scope
    | _ => none
  | room + 1, "Return", j => (listOf (fun e => readExpr room e) j).map .ret
  | room + 1, "Local", j =>
    match j.fields? ["id", "names", "values"] with
    | some [some id, some ns, values] => do
      return .declare (← id.uint32?) (← strings room ns)
        (← defaulted [] (fun vs => readExprs room vs) values)
    | _ => none
  | room + 1, "Assign", j =>
    match j.fields? ["id", "targets", "values"] with
    | some [some id, some targets, some values] => do
      return .assign (← id.uint32?) (← readExprs room targets) (← readExprs room values)
    | _ => none
  | room + 1, "Call", j =>
    match j.fields? ["func", "args"] with
    | some [some f, some args] => do
      return .call (← readExpr room f) (← readExprs room args)
    | _ => none
  | room + 1, "If", j =>
    match j.fields? ["clauses", "else_body"] with
    | some [some clauses, orElse] => do
      return .branch (← readClauses room clauses) (← optional (fun b => readBlock room b) orElse)
    | _ => none
  | room + 1, "While", j =>
    match j.fields? ["cond", "body"] with
    | some [some cond, some body] => do
      return .whileLoop (← readExpr room cond) (← readBlock room body)
    | _ => none
  | room + 1, "Repeat", j =>
    match j.fields? ["body", "cond"] with
    | some [some body, some cond] => do
      return .repeatLoop (← readBlock room body) (← readExpr room cond)
    | _ => none
  | room + 1, "NumericFor", j =>
    match j.fields? ["var", "start", "limit", "step", "body"] with
    | some [some var, some start, some limit, step, some body] => do
      return .numericFor (← var.string?) (← readExpr room start) (← readExpr room limit)
        (← optional (fun e => readExpr room e) step) (← readBlock room body)
    | _ => none
  | room + 1, "GenericFor", j =>
    match j.fields? ["names", "exprs", "body"] with
    | some [some ns, some exprs, some body] => do
      return .genericFor (← strings room ns) (← readExprs room exprs) (← readBlock room body)
    | _ => none
  | _, _, _ => none

def readClauses : Nat → Json → Option (List Clause)
  | 0, _ => none
  | room + 1, j => listOf (fun c => readClause room c) j

def readClause : Nat → Json → Option Clause
  | 0, _ => none
  | room + 1, j =>
    match j.fields? ["cond", "body"] with
    | some [some cond, some body] => do
      return .mk (← readExpr room cond) (← readBlock room body)
    | _ => none

end

end Devirt.Document
