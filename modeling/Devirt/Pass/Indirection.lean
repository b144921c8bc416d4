import Devirt.Dict
import Devirt.Pass.Hooks

set_option autoImplicit false

/-! # Undoing indirection tables

An obfuscated script reaches its globals through tables with opaque keys.  A *mapping* says what each
key stands for: a path of names, or an integer.  Wherever a field with a mapped key is selected, from
whatever object, the selection is replaced by what the key stands for.

The names of a path below its root become selections that are looked at again, so a path whose inner
names are mapped themselves would be nested into itself at every visit.  Such keys are dropped when a
mapping is made. -/

namespace Devirt

/-- What each key stands for, segment by segment. -/
abbrev Paths := Dict String (List String)

namespace Indirection

/-- The segments between the first and the last. -/
def inner (path : List String) : List String := path.tail.dropLast

/-- A path that would be re-entered below its own root. -/
def reenters (given : Paths) (path : List String) : Bool :=
  (inner path).any given.contains

/-- The mapping that is put to use: the given one without the keys whose paths re-enter it. -/
def usable (given : Paths) : Paths :=
  given.filter fun _ path => !reenters given path

/-! ## Paths and selections -/

/-- The selection that follows a path below an expression. -/
def select : Expr → List String → Expr
  | e, [] => e
  | e, seg :: segs => select (.member e seg) segs

/-- The path that an expression follows, if it is a name with selections below it. -/
def pathOf? : Expr → Option (List String)
  | .name n => some [n]
  | .member o f => (pathOf? o).map (· ++ [f])
  | _ => none

/-- A decimal digit's value. -/
def digit? (c : Char) : Option Nat :=
  if '0' ≤ c ∧ c ≤ '9' then some (c.toNat - '0'.toNat) else none

/-- The number written by decimal digits; there must be at least one. -/
def digits? : List Char → Option Nat
  | [] => none
  | cs => cs.foldlM (fun n c => (digit? c).map (n * 10 + ·)) 0

/-- A 64-bit integer in decimal, with an optional sign. -/
def integer? (s : String) : Option Int :=
  let signed := match s.toList with
    | '-' :: cs => (digits? cs).map fun n => -(n : Int)
    | '+' :: cs => (digits? cs).map Int.ofNat
    | cs => (digits? cs).map Int.ofNat
  signed.filter fun n => -0x8000000000000000 ≤ n ∧ n ≤ 0x7fffffffffffffff

/-- What a key with this path stands for.  An integer in first place stands alone. -/
def target : List String → Option Expr
  | [] => none
  | first :: rest =>
    match integer? first with
    | some n => some (.number (Double.ofInt n))
    | none => some (select (.name first) rest)

/-- The answer for a selection; one that is its own target is left. -/
def member (paths : Paths) (object : Expr) (field : String) : Option Expr :=
  match paths.get? field with
  | none => none
  | some path =>
    match integer? (path.headD ""), pathOf? (.member object field) with
    | none, some here => if here = path then none else target path
    | _, _ => target path

/-- The pass of a mapping that is put to use as it stands. -/
def pass (paths : Paths) : Pass where
  member := member paths

def stage (paths : Paths) : Stage := (pass paths).stage "constant-replacer"

end Indirection

end Devirt
