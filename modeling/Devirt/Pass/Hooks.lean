import Devirt.Syntax.Tree

set_option autoImplicit false

/-! # Passes

A pass is a family of hooks, one for each kind of node that can be replaced.  A hook sees one node and
answers its replacement, or `none` to leave it alone; it edits nothing itself.  How the hooks are
driven over a tree is the business of the walk (`Pass.Walk`).

A stage is a named pass that may look at the whole tree before each walk. -/

namespace Devirt

/-- The hooks of a pass.  A hook that is not given declines every node. -/
structure Pass where
  binary : BinaryOp → Expr → Expr → Option Expr := fun _ _ _ => none
  unary : UnaryOp → Expr → Option Expr := fun _ _ => none
  member : Expr → String → Option Expr := fun _ _ => none
  index : Expr → Expr → Option Expr := fun _ _ => none
  /-- Function and arguments of a call, as an expression or as a statement. -/
  call : Expr → List Expr → Option (Expr × List Expr) := fun _ _ => none
  declare : NodeId → List String → List Expr → Option Stmt := fun _ _ _ => none
  assign : NodeId → List Expr → List Expr → Option Stmt := fun _ _ _ => none
  block : Block → Option Block := fun _ => none

namespace Pass

/-- What the pass answers for an expression. -/
def onExpr (p : Pass) : Expr → Option Expr
  | .binary op l r => p.binary op l r
  | .unary op e => p.unary op e
  | .member o f => p.member o f
  | .index t k => p.index t k
  | .call f args => (p.call f args).map fun c => .call c.1 c.2
  | _ => none

/-- What the pass answers for a statement. -/
def onStmt (p : Pass) : Stmt → Option Stmt
  | .declare id names values => p.declare id names values
  | .assign id targets values => p.assign id targets values
  | .call f args => (p.call f args).map fun c => .call c.1 c.2
  | _ => none

end Pass

/-- A named pass, made ready for a tree before each walk over it. -/
structure Stage where
  name : String
  prepare : Block → Pass

/-- A stage whose pass does not depend on the tree. -/
def Pass.stage (p : Pass) (name : String) : Stage := ⟨name, fun _ => p⟩

end Devirt
