import Devirt.Dict
import Devirt.Syntax.Tree

set_option autoImplicit false

/-! # How names are used

The analysis goes in two steps.  First the tree is read off as a list of *events* in textual order: a
name is read, bound, or merely introduced, as loop variables and parameters are.  The values of a
statement come before its targets, and an `until` condition belongs to the block of its loop.  Each
event carries the *place* where it happens, the numbers of the blocks that are open there, outermost
first; blocks are numbered as they are entered, so one place lies inside another block exactly when
the path of that block begins it.

Then the events are folded into one table keyed by name, flat over the whole tree. -/

namespace Devirt

/-- What is known of a name. -/
structure Variable where
  reads : Nat
  /-- Assignments after the one that introduced the name. -/
  assignments : Nat
  /-- The statement that bound the name first. -/
  declaration : Option NodeId
  /-- The value bound there, when names and values pair up one to one. -/
  value : Option Expr
  /-- Read before the declaration, or read or assigned outside the block that holds it. -/
  escapes : Bool

namespace Variable

/-- A name that was introduced and nothing else. -/
def fresh : Variable := ⟨0, 0, none, none, false⟩

instance : Inhabited Variable := ⟨fresh⟩

end Variable

/-- What is known of every name in a tree. -/
abbrev UsageTable := Dict String Variable

namespace Usage

/-! ## Events -/

/-- The numbers of the open blocks, outermost first. -/
abbrev Place := List Nat

inductive Event where
  | read (name : String) (place : Place)
  /-- A `local` statement names a variable. -/
  | declare (name : String) (place : Place) (id : NodeId) (value : Option Expr)
  /-- A variable is an assignment target. -/
  | assign (name : String) (place : Place) (id : NodeId) (value : Option Expr)
  /-- A loop variable or a parameter. -/
  | introduce (name : String)

/-- Pairs names, targets or the like with the values of the statement, if there are as many. -/
def paired {α : Type} (items : List α) (values : List Expr) : List (α × Option Expr) :=
  if items.length = values.length then items.zip (values.map some)
  else items.map fun x => (x, none)

mutual

/-- The events of an expression at a place, and the next block number. -/
def exprEvents (place : Place) : Expr → Nat → List Event × Nat
  | .nil, next | .bool _, next | .number _, next | .string _, next | .vararg, next => ([], next)
  | .name n, next => ([.read n place], next)
  | .binary _ l r, next =>
    let (ls, next) := exprEvents place l next
    let (rs, next) := exprEvents place r next
    (ls ++ rs, next)
  | .unary _ e, next => exprEvents place e next
  | .member o _, next => exprEvents place o next
  | .index t k, next =>
    let (ts, next) := exprEvents place t next
    let (ks, next) := exprEvents place k next
    (ts ++ ks, next)
  | .call f args, next =>
    let (fs, next) := exprEvents place f next
    let (as, next) := exprsEvents place args next
    (fs ++ as, next)
  | .table entries, next => entriesEvents place entries next
  | .function params _ body, next =>
    let (bs, next) := stmtsEvents (place ++ [next]) body (next + 1)
    (params.map .introduce ++ bs, next)

def exprsEvents (place : Place) : List Expr → Nat → List Event × Nat
  | [], next => ([], next)
  | e :: es, next =>
    let (xs, next) := exprEvents place e next
    let (ys, next) := exprsEvents place es next
    (xs ++ ys, next)

def entriesEvents (place : Place) : List Entry → Nat → List Event × Nat
  | [], next => ([], next)
  | .positional v :: es, next =>
    let (vs, next) := exprEvents place v next
    let (ys, next) := entriesEvents place es next
    (vs ++ ys, next)
  | .keyed k v :: es, next =>
    let (ks, next) := exprEvents place k next
    let (vs, next) := exprEvents place v next
    let (ys, next) := entriesEvents place es next
    (ks ++ vs ++ ys, next)

/-- The events of assignment targets: a plain name is assigned, of any other target the parts are
read. -/
def targetsEvents (place : Place) (id : NodeId) (values : List (Option Expr)) :
    List Expr → Nat → List Event × Nat
  | [], next => ([], next)
  | .name n :: es, next =>
    let (ys, next) := targetsEvents place id (values.drop 1) es next
    (.assign n place id (values.head?.join) :: ys, next)
  | e :: es, next =>
    let (xs, next) := exprEvents place e next
    let (ys, next) := targetsEvents place id (values.drop 1) es next
    (xs ++ ys, next)

def stmtEvents (place : Place) : Stmt → Nat → List Event × Nat
  | .declare id names values, next =>
    let (vs, next) := exprsEvents place values next
    (vs ++ (paired names values).map fun p => .declare p.1 place id p.2, next)
  | .assign id targets values, next =>
    let (vs, next) := exprsEvents place values next
    let (ts, next) :=
      targetsEvents place id (if targets.length = values.length then values.map some else [])
        targets next
    (vs ++ ts, next)
  | .call f args, next =>
    let (fs, next) := exprEvents place f next
    let (as, next) := exprsEvents place args next
    (fs ++ as, next)
  | .scope body, next => stmtsEvents (place ++ [next]) body (next + 1)
  | .branch clauses none, next => clausesEvents place clauses next
  | .branch clauses (some body), next =>
    let (cs, next) := clausesEvents place clauses next
    let (bs, next) := stmtsEvents (place ++ [next]) body (next + 1)
    (cs ++ bs, next)
  | .whileLoop cond body, next =>
    let (cs, next) := exprEvents place cond next
    let (bs, next) := stmtsEvents (place ++ [next]) body (next + 1)
    (cs ++ bs, next)
  | .repeatLoop body cond, next =>
    let inside := place ++ [next]
    let (bs, next) := stmtsEvents inside body (next + 1)
    let (cs, next) := exprEvents inside cond next
    (bs ++ cs, next)
  | .numericFor var start limit none body, next =>
    let (xs, next) := exprEvents place start next
    let (ys, next) := exprEvents place limit next
    let (bs, next) := stmtsEvents (place ++ [next]) body (next + 1)
    (xs ++ ys ++ .introduce var :: bs, next)
  | .numericFor var start limit (some step) body, next =>
    let (xs, next) := exprEvents place start next
    let (ys, next) := exprEvents place limit next
    let (zs, next) := exprEvents place step next
    let (bs, next) := stmtsEvents (place ++ [next]) body (next + 1)
    (xs ++ ys ++ zs ++ .introduce var :: bs, next)
  | .genericFor names exprs body, next =>
    let (xs, next) := exprsEvents place exprs next
    let (bs, next) := stmtsEvents (place ++ [next]) body (next + 1)
    (xs ++ names.map .introduce ++ bs, next)
  | .ret values, next => exprsEvents place values next
  | .brk, next => ([], next)

def stmtsEvents (place : Place) : List Stmt → Nat → List Event × Nat
  | [], next => ([], next)
  | s :: ss, next =>
    let (xs, next) := stmtEvents place s next
    let (ys, next) := stmtsEvents place ss next
    (xs ++ ys, next)

def clausesEvents (place : Place) : List Clause → Nat → List Event × Nat
  | [], next => ([], next)
  | .mk cond body :: cs, next =>
    let (xs, next) := exprEvents place cond next
    let (bs, next) := stmtsEvents (place ++ [next]) body (next + 1)
    let (ys, next) := clausesEvents place cs next
    (xs ++ bs ++ ys, next)

end

/-- The events of a block, which is itself block number zero. -/
def events (b : Block) : List Event := (stmtsEvents [0] b 1).1

/-! ## The table -/

/-- A variable together with the place of its declaration. -/
structure Tracked where
  info : Variable
  home : Option Place

namespace Tracked

def fresh : Tracked := ⟨.fresh, none⟩

/-- Marks the variable when a use lies outside the block of its declaration. -/
def usedAt (t : Tracked) (place : Place) : Tracked :=
  match t.home with
  | none => t
  | some home => if home.isPrefixOf place then t else { t with info := { t.info with escapes := true } }

def read (t : Tracked) (place : Place) : Tracked :=
  usedAt { t with info := { t.info with reads := t.info.reads + 1 } } place

/-- The first binding is the declaration; a read before it escapes. -/
def declare (t : Tracked) (place : Place) (id : NodeId) (value : Option Expr) : Tracked :=
  if t.info.declaration.isSome then t
  else
    { info :=
        { t.info with
          declaration := some id
          value := value
          escapes := t.info.escapes || decide (0 < t.info.reads) }
      home := some place }

def assign (t : Tracked) (place : Place) (id : NodeId) (value : Option Expr) : Tracked :=
  if t.info.declaration.isSome then
    usedAt { t with info := { t.info with assignments := t.info.assignments + 1 } } place
  else t.declare place id value

end Tracked

namespace Event

def name : Event → String
  | read n _ | declare n _ _ _ | assign n _ _ _ | introduce n => n

/-- What an event does to the variable it is about. -/
def apply : Event → Tracked → Tracked
  | read _ place, t => t.read place
  | declare _ place id value, t => t.declare place id value
  | assign _ place id value, t => t.assign place id value
  | introduce _, t => t

end Event

def record (table : Dict String Tracked) (e : Event) : Dict String Tracked :=
  table.insert e.name (e.apply ((table.get? e.name).getD .fresh))

/-- The table that a list of events yields. -/
def tabulate (es : List Event) : UsageTable :=
  ⟨(es.foldl record .empty).entries.map fun p => (p.1, p.2.info)⟩

end Usage

/-- The usage of every name in a block. -/
def Block.usage (b : Block) : UsageTable := Usage.tabulate (Usage.events b)

end Devirt
