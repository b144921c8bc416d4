import Devirt.Number.Numeral
import Devirt.Syntax.Tree
import Devirt.Text.Blank
import Devirt.Text.Quoted

set_option autoImplicit false

/-! # Printing trees as source

Every binary operation is parenthesised, every statement takes its own lines, and a nested block is
indented by four blanks.  A field that is no identifier is written in brackets.  The operand of a
negation is parenthesised when its text begins with a minus sign, since two of them open a comment.
The body of a function expression is indented once, wherever the expression stands. -/

namespace Devirt

namespace Syntax

def isLetter (c : Char) : Bool := ('a' ≤ c && c ≤ 'z') || ('A' ≤ c && c ≤ 'Z')

def isIdentStart (c : Char) : Bool := isLetter c || c == '_'

def isIdentRest (c : Char) : Bool := isIdentStart c || ('0' ≤ c && c ≤ '9')

/-- An identifier, reserved words included; the classes are those of ASCII. -/
def isIdent (s : String) : Bool :=
  match s.toList with
  | [] => false
  | c :: cs => isIdentStart c && cs.all isIdentRest

/-- Texts in a row, parted by a comma and a blank. -/
def commas : List String → String
  | [] => ""
  | [s] => s
  | s :: t :: ts => s ++ ", " ++ commas (t :: ts)

/-- The text of selecting a field. -/
def fieldText (field : String) : String :=
  if isIdent field then "." ++ field else "[" ++ Text.quote field ++ "]"

/-- The text of a prefix operator on an operand's text. -/
def unaryText (op : UnaryOp) (operand : String) : String :=
  if op = .neg ∧ operand.toList.head? = some '-' then "-(" ++ operand ++ ")"
  else op.symbol ++ operand

/-- Four blanks for every level. -/
def pad : Nat → String
  | 0 => ""
  | n + 1 => "    " ++ pad n

end Syntax

open Syntax

mutual

/-- The text of an expression. -/
def Expr.text : Expr → String
  | .nil => "nil"
  | .bool b => if b then "true" else "false"
  | .number x => x.numeral
  | .string s => Text.quote s
  | .vararg => "..."
  | .name n => n
  | .binary op l r => "(" ++ l.text ++ " " ++ op.symbol ++ " " ++ r.text ++ ")"
  | .unary op e => unaryText op e.text
  | .member o f => o.text ++ fieldText f
  | .index t k => t.text ++ "[" ++ k.text ++ "]"
  | .call f args => f.text ++ "(" ++ commas (Expr.texts args) ++ ")"
  | .table entries => "\x7b" ++ commas (Entry.texts entries) ++ "\x7d"
  | .function params variadic body =>
    "function(" ++ commas (if variadic then params ++ ["..."] else params) ++ ")\n"
      ++ Stmt.lines 1 body ++ "end"

def Expr.texts : List Expr → List String
  | [] => []
  | e :: es => e.text :: Expr.texts es

def Entry.texts : List Entry → List String
  | [] => []
  | .positional v :: es => v.text :: Entry.texts es
  | .keyed k v :: es => ("[" ++ k.text ++ "] = " ++ v.text) :: Entry.texts es

/-- The lines of a statement at a level of indentation. -/
def Stmt.source (level : Nat) : Stmt → String
  | .declare _ names [] => pad level ++ "local " ++ commas names ++ "\n"
  | .declare _ names (v :: vs) =>
    pad level ++ "local " ++ commas names ++ " = " ++ commas (v.text :: Expr.texts vs) ++ "\n"
  | .assign _ targets values =>
    pad level ++ commas (Expr.texts targets) ++ " = " ++ commas (Expr.texts values) ++ "\n"
  | .call f args => pad level ++ f.text ++ "(" ++ commas (Expr.texts args) ++ ")\n"
  | .scope body => pad level ++ "do\n" ++ Stmt.lines (level + 1) body ++ pad level ++ "end\n"
  | .branch clauses none => Clause.lines level "if" clauses ++ pad level ++ "end\n"
  | .branch clauses (some body) =>
    Clause.lines level "if" clauses ++ pad level ++ "else\n" ++ Stmt.lines (level + 1) body
      ++ pad level ++ "end\n"
  | .whileLoop cond body =>
    pad level ++ "while " ++ cond.text ++ " do\n" ++ Stmt.lines (level + 1) body
      ++ pad level ++ "end\n"
  | .repeatLoop body cond =>
    pad level ++ "repeat\n" ++ Stmt.lines (level + 1) body
      ++ pad level ++ "until " ++ cond.text ++ "\n"
  | .numericFor var start limit none body =>
    pad level ++ "for " ++ var ++ " = " ++ start.text ++ ", " ++ limit.text ++ " do\n"
      ++ Stmt.lines (level + 1) body ++ pad level ++ "end\n"
  | .numericFor var start limit (some step) body =>
    pad level ++ "for " ++ var ++ " = " ++ start.text ++ ", " ++ limit.text ++ ", " ++ step.text
      ++ " do\n" ++ Stmt.lines (level + 1) body ++ pad level ++ "end\n"
  | .genericFor names exprs body =>
    pad level ++ "for " ++ commas names ++ " in " ++ commas (Expr.texts exprs) ++ " do\n"
      ++ Stmt.lines (level + 1) body ++ pad level ++ "end\n"
  | .ret [] => pad level ++ "return\n"
  | .ret (v :: vs) => pad level ++ "return " ++ commas (v.text :: Expr.texts vs) ++ "\n"
  | .brk => pad level ++ "break\n"

/-- The lines of the statements of a block. -/
def Stmt.lines (level : Nat) : List Stmt → String
  | [] => ""
  | s :: ss => s.source level ++ Stmt.lines level ss

/-- The clauses of a conditional, the first opened by `keyword` and the others by `elseif`. -/
def Clause.lines (level : Nat) (keyword : String) : List Clause → String
  | [] => ""
  | .mk cond body :: cs =>
    pad level ++ keyword ++ " " ++ cond.text ++ " then\n" ++ Stmt.lines (level + 1) body
      ++ Clause.lines level "elseif" cs

end

/-- A statement shown alone has no line break, and no other blank, at its end. -/
def Stmt.text (s : Stmt) : String := Text.trimEnd (s.source 0)

/-- The source of a block. -/
def Block.text (b : Block) : String := Stmt.lines 0 b

end Devirt
