import Devirt.Pass.Hooks
import Devirt.Usage

set_option autoImplicit false

/-! # Collapsing temporaries

A decompiler spreads a handler over generated temporaries, recognised by the prefix of their names.
This pass inlines them, turns their first assignment into a declaration, and removes declarations that
are no longer read, so that plain register accesses remain.

Every rule asks the usage table first.  A name without an entry is never touched, nor is one that is
used outside the block of its declaration. -/

namespace Devirt

/-- What the passes may be told. -/
structure Options where
  /-- How the names of generated temporaries begin. -/
  tempPrefix : String
  /-- The name of the helper that stores a value in a register. -/
  registerHelper : String
  maxIterations : Nat
  deriving DecidableEq, Inhabited

def Options.standard : Options := ⟨"_", "stk", 64⟩

namespace Temporaries

/-- What the rules know: the options, and the usage of names in the block before the walk. -/
structure Context where
  options : Options
  usage : UsageTable

namespace Context

variable (c : Context)

/-- The entry of a temporary that stays inside its block. -/
def temporary (n : String) : Option Variable :=
  if c.options.tempPrefix.toList.isPrefixOf n.toList then
    (c.usage.get? n).filter fun v => !v.escapes
  else none

/-! ## What may stand for a temporary -/

/-- Whether a value may be inlined for a temporary: a name always, an element of a named table under
a named key or an operation only at the single place where the temporary is read. -/
def inlinable (n : String) (v : Variable) (value : Expr) : Bool :=
  v.assignments == 0 &&
    match value with
    | .name m => m != n
    | .index (.name _) (.name _) | .binary .. => v.reads == 1 && !value.mentions n
    | _ => false

/-- The value that replaces an expression. -/
def substitute : Expr → Option Expr
  | .name n =>
    match c.temporary n with
    | none => none
    | some v => v.value.filter (inlinable n v)
  | _ => none

/-- Replaces either or both of two operands. -/
def substitutePair (left right : Expr) : Option (Expr × Expr) :=
  match c.substitute left, c.substitute right with
  | none, none => none
  | l, r => some (l.getD left, r.getD right)

/-- All names of the declaration are known and never read. -/
def isDead (names : List String) : Bool :=
  names.all fun n => ((c.usage.get? n).map (·.reads)) == some 0

/-- The temporary is bound first by the statement with this identity. -/
def declaredBy (id : NodeId) (target : Expr) : Bool :=
  match target with
  | .name n => ((c.temporary n).bind (·.declaration)) == some id
  | _ => false

/-! ## The hooks -/

/-- The two arguments of the register helper. -/
def call : Expr → List Expr → Option (Expr × List Expr)
  | .name f, [.name a, .name b] =>
    if f = c.options.registerHelper then
      (c.substitutePair (.name a) (.name b)).map fun p => (.name f, [p.1, p.2])
    else none
  | _, _ => none

def index (table key : Expr) : Option Expr :=
  (c.substitutePair table key).map fun p => .index p.1 p.2

def binary (op : BinaryOp) (left right : Expr) : Option Expr :=
  (c.substitutePair left right).map fun p => .binary op p.1 p.2

/-- An assignment that binds all its targets first becomes a declaration; else the single name that
is assigned to a single target is inlined. -/
def assign (id : NodeId) (targets values : List Expr) : Option Stmt :=
  if !targets.isEmpty && targets.all (c.declaredBy id) then
    some (.declare id (targets.filterMap Expr.name?) values)
  else
    match targets, values with
    | [_], [value] => (c.substitute value).map fun v => .assign id targets [v]
    | _, _ => none

def isDeadStmt : Stmt → Bool
  | .declare _ names _ => c.isDead names
  | _ => false

/-- Removes the dead declarations, if there are any. -/
def block (b : Block) : Option Block :=
  if b.any c.isDeadStmt then some (b.filter fun s => !c.isDeadStmt s) else none

def pass : Pass where
  call := c.call
  index := c.index
  binary := c.binary
  assign := c.assign
  block := c.block

end Context

def name : String := "handler-rewriter"

/-- Analyses the usage of names before every walk. -/
def stage (options : Options) : Stage := ⟨name, fun b => (Context.mk options b.usage).pass⟩

/-- Works with a table that is given once and for all. -/
def stageWith (options : Options) (usage : UsageTable) : Stage :=
  (Context.mk options usage).pass.stage name

end Temporaries

end Devirt
