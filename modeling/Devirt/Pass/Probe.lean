import Devirt.Pass.Hooks

set_option autoImplicit false

/-! # Passes that exercise one hook

Each of these small passes answers through a single hook.  Between them they show what the walk does
with a pass that settles, one that always answers the same node, and one that grows the tree. -/

namespace Devirt.Probe

/-- `x + 0` becomes `x`. -/
def dropAddZero : Pass where
  binary
    | .add, l, .number x => if x.isZero then some l else none
    | _, _, _ => none

/-- Answers the node it is asked about. -/
def stubborn : Pass where
  unary op e := some (.unary op e)

/-- Wraps a unary operation in another of its kind. -/
def burrow : Pass where
  unary op e := some (.unary op (.unary op e))

/-- A declaration becomes an assignment to its names. -/
def localToAssign : Pass where
  declare id names values := some (.assign id (names.map .name) values)

/-- An assignment to names only becomes a declaration. -/
def assignToLocal : Pass where
  assign id targets values := (targets.mapM Expr.name?).map fun names => .declare id names values

/-- Drops the first argument of a call. -/
def callShift : Pass where
  call
    | _, [] => none
    | f, _ :: args => some (f, args)

/-- Drops a `break` that stands first in a block. -/
def peelBlock : Pass where
  block
    | .brk :: rest => some rest
    | _ => none

/-- A selection by name becomes one by key. -/
def memberToIndex : Pass where
  member o f := some (.index o (.string f))

def noop : Pass where

/-- The probes with their names. -/
def all : List Stage :=
  [dropAddZero.stage "drop-add-zero", stubborn.stage "stubborn", burrow.stage "burrow",
   localToAssign.stage "local-to-assign", assignToLocal.stage "assign-to-local",
   callShift.stage "call-shift", peelBlock.stage "peel-block",
   memberToIndex.stage "member-to-index", noop.stage "noop"]

end Devirt.Probe
