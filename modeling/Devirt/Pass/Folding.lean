import Devirt.Pass.Hooks

set_option autoImplicit false

/-! # Folding constants

Three rules, each for one node: a negated number becomes the number, the length of a constructor of
positional literals becomes their count, and a comparison with a number on its left and anything but a
literal on its right trades its operands. -/

namespace Devirt

namespace Folding

/-- An entry that surely occupies one array slot: a positional literal other than `nil`. -/
def isArrayItem : Entry → Bool
  | .positional .nil => false
  | .positional v => v.isLiteral
  | .keyed _ _ => false

def unary : UnaryOp → Expr → Option Expr
  | .neg, .number x => some (.number (-x))
  | .len, .table entries =>
    if entries.all isArrayItem then some (.number (Double.ofNat entries.length)) else none
  | _, _ => none

/-- `5 < x` becomes `x > 5`. -/
def binary : BinaryOp → Expr → Expr → Option Expr
  | op, .number x, r =>
    if r.isLiteral then none else op.converse.map fun op => .binary op r (.number x)
  | _, _, _ => none

/-- The folding pass. -/
def pass : Pass where
  unary := unary
  binary := binary

def stage : Stage := pass.stage "constant-folder"

end Folding

end Devirt
