import Devirt.Bytecode.Prototype

set_option autoImplicit false

/-! # Places in a tree of prototypes

A prototype of a tree is named by the child indices that lead to it from the root. -/

namespace Devirt.Prototype

/-- The prototype at a place. -/
def descend? : List Nat → Prototype → Option Prototype
  | [], p => some p
  | i :: path, p => (p.children[i]?).bind (descend? path)

/-- The tree with the prototype at a place changed; a place outside the tree changes nothing. -/
def modifyAt (f : Prototype → Prototype) : List Nat → Prototype → Prototype
  | [], p => f p
  | i :: path, p =>
    mk p.header p.instructions p.constants (p.children.modify i (modifyAt f path))

end Devirt.Prototype
