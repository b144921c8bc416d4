import Devirt.Syntax.Tree

set_option autoImplicit false

/-! # Fingerprints

The fingerprint of a handler is the shape of its body, written as decimal tokens one after the other:
the operators and statement forms in textual order, and the names of the virtual machine's own
vocabulary.  Literals, other names, binding statements and plain blocks leave no token, so two builds of
a handler agree although their constants and temporaries differ. -/

namespace Devirt

namespace Fingerprint

/-- The vocabulary of the virtual machine. -/
def vocabulary : List (String × Nat) :=
  [("inst", 0), ("stk", 1), ("upv", 2), ("env", 3), ("vararg", 4), ("unpack", 5),
   ("setmetatable", 7), ("protos", 8), ("pc", 29), ("top", 30)]

def nameToken (n : String) : Option Nat := vocabulary.lookup n

def binaryToken : BinaryOp → Nat
  | .add => 15
  | .sub => 16
  | .mul => 17
  | .div => 18
  | .mod => 19
  | .pow => 20
  | .lt => 21
  | .gt => 22
  | .le => 23
  | .ge => 24
  | .eq => 25
  | .ne => 26
  | .concat => 32
  | .and => 35
  | .or => 36

def unaryToken : UnaryOp → Nat
  | .len => 28
  | .neg => 31
  | .not => 34

mutual

/-- The tokens of an expression. -/
def exprTokens : Expr → List Nat
  | .nil | .bool _ | .number _ | .string _ => []
  | .vararg => [42]
  | .name n => (nameToken n).toList
  | .binary op l r => binaryToken op :: (exprTokens l ++ exprTokens r)
  | .unary op e => unaryToken op :: exprTokens e
  | .member o _ => 6 :: exprTokens o
  | .index t k => 9 :: (exprTokens t ++ exprTokens k)
  | .call f args => 14 :: (exprTokens f ++ exprsTokens args)
  | .table entries => 33 :: entriesTokens entries
  | .function _ _ body => 41 :: stmtsTokens body

def exprsTokens : List Expr → List Nat
  | [] => []
  | e :: es => exprTokens e ++ exprsTokens es

def entriesTokens : List Entry → List Nat
  | [] => []
  | .positional v :: es => exprTokens v ++ entriesTokens es
  | .keyed k v :: es => exprTokens k ++ exprTokens v ++ entriesTokens es

/-- The tokens of a statement.  A conditional announces its further clauses and its `else` before the
tokens of the clauses. -/
def stmtTokens : Stmt → List Nat
  | .declare _ _ values => exprsTokens values
  | .assign _ targets values => exprsTokens targets ++ exprsTokens values
  | .call f args => 14 :: (exprTokens f ++ exprsTokens args)
  | .scope body => stmtsTokens body
  | .branch clauses none =>
    10 :: (List.replicate (clauses.length - 1) 11 ++ clausesTokens clauses)
  | .branch clauses (some body) =>
    10 :: (List.replicate (clauses.length - 1) 11 ++ 12 :: (clausesTokens clauses ++ stmtsTokens body))
  | .whileLoop cond body => 37 :: (exprTokens cond ++ stmtsTokens body)
  | .repeatLoop body cond => 38 :: (stmtsTokens body ++ exprTokens cond)
  | .numericFor _ start limit none body =>
    13 :: (exprTokens start ++ exprTokens limit ++ stmtsTokens body)
  | .numericFor _ start limit (some step) body =>
    13 :: (exprTokens start ++ exprTokens limit ++ exprTokens step ++ stmtsTokens body)
  | .genericFor _ exprs body => 39 :: (exprsTokens exprs ++ stmtsTokens body)
  | .ret values => 27 :: exprsTokens values
  | .brk => [40]

def stmtsTokens : List Stmt → List Nat
  | [] => []
  | s :: ss => stmtTokens s ++ stmtsTokens ss

def clausesTokens : List Clause → List Nat
  | [] => []
  | .mk cond body :: cs => exprTokens cond ++ stmtsTokens body ++ clausesTokens cs

end

/-- Tokens in decimal, one after the other. -/
def write (tokens : List Nat) : String := String.join (tokens.map toString)

end Fingerprint

/-- The tokens of a block in textual order. -/
def Block.tokens (b : Block) : List Nat := Fingerprint.stmtsTokens b

def Block.fingerprint (b : Block) : String := Fingerprint.write b.tokens

end Devirt
