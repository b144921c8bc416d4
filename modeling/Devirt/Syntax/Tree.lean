import Devirt.Number.Double

set_option autoImplicit false

/-! # Syntax trees

The decompiled source of a handler or script.  A block is a list of statements.  Statements that bind
names carry an identity (`NodeId`), by which a declaration site is referred to; it has no influence on
what the statement does.

The tree admits more than the language does: any expression may stand as an assignment target, and a
conditional may have no clause at all. -/

namespace Devirt

/-- The identity of a binding statement. -/
abbrev NodeId := UInt32

/-! ## Operators -/

inductive BinaryOp where
  | add | sub | mul | div | mod | pow | concat
  | eq | ne | lt | gt | le | ge
  | and | or
  deriving DecidableEq, Inhabited

namespace BinaryOp

def all : List BinaryOp :=
  [add, sub, mul, div, mod, pow, concat, eq, ne, lt, gt, le, ge, and, or]

def symbol : BinaryOp → String
  | add => "+"
  | sub => "-"
  | mul => "*"
  | div => "/"
  | mod => "%"
  | pow => "^"
  | concat => ".."
  | eq => "=="
  | ne => "~="
  | lt => "<"
  | gt => ">"
  | le => "<="
  | ge => ">="
  | and => "and"
  | or => "or"

/-- The operator that keeps the truth value when the operands trade places. -/
def converse : BinaryOp → Option BinaryOp
  | eq => some eq
  | ne => some ne
  | lt => some gt
  | gt => some lt
  | le => some ge
  | ge => some le
  | _ => none

end BinaryOp

inductive UnaryOp where
  | neg | not | len
  deriving DecidableEq, Inhabited

namespace UnaryOp

def all : List UnaryOp := [neg, not, len]

def symbol : UnaryOp → String
  | neg => "-"
  | not => "not "
  | len => "#"

end UnaryOp

/-! ## Trees -/

mutual

inductive Expr where
  | nil
  | bool (value : Bool)
  | number (value : Double)
  | string (value : String)
  | vararg
  | name (id : String)
  | binary (op : BinaryOp) (left right : Expr)
  | unary (op : UnaryOp) (operand : Expr)
  /-- A field selected by name: `object.field`. -/
  | member (object : Expr) (field : String)
  /-- An element selected by a computed key: `table[key]`. -/
  | index (table key : Expr)
  | call (func : Expr) (args : List Expr)
  | table (entries : List Entry)
  | function (params : List String) (variadic : Bool) (body : List Stmt)

/-- An entry of a table constructor. -/
inductive Entry where
  | positional (value : Expr)
  | keyed (key value : Expr)

inductive Stmt where
  | declare (id : NodeId) (names : List String) (values : List Expr)
  | assign (id : NodeId) (targets values : List Expr)
  | call (func : Expr) (args : List Expr)
  | scope (body : List Stmt)
  /-- The first clause is the `if`, the others are its `elseif`s. -/
  | branch (clauses : List Clause) (orElse : Option (List Stmt))
  | whileLoop (cond : Expr) (body : List Stmt)
  | repeatLoop (body : List Stmt) (cond : Expr)
  | numericFor (var : String) (start limit : Expr) (step : Option Expr) (body : List Stmt)
  | genericFor (names : List String) (exprs : List Expr) (body : List Stmt)
  | ret (values : List Expr)
  | brk

/-- A condition with the statements it guards. -/
inductive Clause where
  | mk (cond : Expr) (body : List Stmt)

end

instance : Inhabited Expr := ⟨.nil⟩
instance : Inhabited Stmt := ⟨.brk⟩

abbrev Block := List Stmt

namespace Clause

def cond : Clause → Expr
  | mk c _ => c

def body : Clause → Block
  | mk _ b => b

end Clause

namespace Expr

def isLiteral : Expr → Bool
  | nil | bool _ | number _ | string _ => true
  | _ => false

def name? : Expr → Option String
  | name n => some n
  | _ => none

/-! ## Occurrences of a name -/

mutual

/-- Whether the name may occur in the expression.  A function body captures names by reference, so
every name may occur in it. -/
def mentions (n : String) : Expr → Bool
  | nil | bool _ | number _ | string _ | vararg => false
  | name m => m == n
  | binary _ l r => l.mentions n || r.mentions n
  | unary _ e => e.mentions n
  | member o _ => o.mentions n
  | index t k => t.mentions n || k.mentions n
  | call f args => f.mentions n || anyMentions n args
  | table entries => anyEntryMentions n entries
  | function .. => true

def anyMentions (n : String) : List Expr → Bool
  | [] => false
  | e :: es => e.mentions n || anyMentions n es

def anyEntryMentions (n : String) : List Entry → Bool
  | [] => false
  | .positional v :: es => v.mentions n || anyEntryMentions n es
  | .keyed k v :: es => k.mentions n || v.mentions n || anyEntryMentions n es

end

end Expr

end Devirt
