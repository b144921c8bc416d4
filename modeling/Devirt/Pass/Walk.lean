import Devirt.Pass.Hooks

set_option autoImplicit false

/-! # Driving a pass over a tree

A *slot* is a place of the tree that holds an expression, a statement or a block.  The walk settles
each slot: it settles the slots below, asks the hook of the node that stands there, and, if the hook
answers a replacement, puts it into the slot and starts over with the replacement, until the hook
declines (`settle`).

Two limits keep a pass that never declines from running on.  A slot is given up after `maxRounds`
replacements; the walk goes on elsewhere.  And once expressions nest deeper than `maxDepth` the whole
walk is halted: nothing is replaced from there on.

Neither limit bounds how deep *statements* nest when a pass answers statements that contain blocks.
The walk therefore takes the number of levels it may descend as an argument, its `fuel`; running out
of it halts the walk as well, with a cause of its own.  `Pass.walk` gives enough fuel for every pass
that does not nest blocks within blocks deeper than it finds them, however deep it nests expressions. -/

namespace Devirt

namespace Walk

/-- Replacements allowed on a single slot. -/
def maxRounds : Nat := 256

/-- Levels of expressions the walk descends into, counted through function bodies. -/
def maxDepth : Nat := 512

/-! ## The state of a walk -/

/-- Why a walk was halted. -/
inductive Halt where
  /-- Expressions nest too deep. -/
  | nesting
  /-- The fuel ran out. -/
  | fuel
  deriving DecidableEq

structure Progress where
  /-- How many replacements were made. -/
  replacements : Nat
  /-- How many slots were given up while their hook still answered. -/
  capped : Nat
  halt : Option Halt
  deriving DecidableEq

namespace Progress

def start : Progress := ⟨0, 0, none⟩

def halted (w : Progress) : Bool := w.halt.isSome

def replaced (w : Progress) : Progress := { w with replacements := w.replacements + 1 }

def giveUp (w : Progress) : Progress := { w with capped := w.capped + 1 }

/-- Halts the walk; the first cause stays. -/
def stop (w : Progress) (cause : Halt) : Progress :=
  if w.halted then w else { w with halt := some cause }

end Progress

/-! ## Settling one slot -/

/-- Settles a slot with `n` rounds left.  `visit` settles the slots below. -/
def settle {α : Type} (visit : α → Progress → α × Progress) (hook : α → Option α) :
    Nat → α → Progress → α × Progress
  | 0, x, w => (x, w.giveUp)
  | n + 1, x, w =>
    let (x, w) := visit x w
    if w.halted then (x, w)
    else
      match hook x with
      | none => (x, w)
      | some y => settle visit hook n y w.replaced

/-- One round of a slot: either the visit is the last one, since it leaves the walk halted or the hook declines,
or what the hook answers is settled in the rounds that are left. -/
theorem settle_succ {α : Type} (visit : α → Progress → α × Progress) (hook : α → Option α) (n : Nat)
    (x : α) (w : Progress) :
    (settle visit hook (n + 1) x w = visit x w ∧
        ((visit x w).2.halted = true ∨ hook (visit x w).1 = none)) ∨
      ∃ y, (visit x w).2.halted = false ∧ hook (visit x w).1 = some y ∧
        settle visit hook (n + 1) x w = settle visit hook n y (visit x w).2.replaced := by
  rw [settle]
  generalize visit x w = r
  obtain ⟨x', w'⟩ := r
  simp only
  by_cases hhalted : w'.halted = true
  · rw [if_pos hhalted]
    exact .inl ⟨rfl, .inl hhalted⟩
  · rw [if_neg hhalted]
    cases hhook : hook x' with
    | none => exact .inl ⟨rfl, .inr rfl⟩
    | some y => exact .inr ⟨y, by simpa using hhalted, rfl, rfl⟩

/-! ## Visiting the slots below a node -/

/-- Visits the items of a list in order. -/
def visitList {α σ : Type} (f : α → σ → α × σ) : List α → σ → List α × σ
  | [], s => ([], s)
  | x :: xs, s =>
    let (x, s) := f x s
    let (xs, s) := visitList f xs s
    (x :: xs, s)

def visitOption {α σ : Type} (f : α → σ → α × σ) : Option α → σ → Option α × σ
  | none, s => (none, s)
  | some x, s =>
    let (x, s) := f x s
    (some x, s)

section

variable {σ : Type} (onExpr : Expr → σ → Expr × σ) (onBlock : Block → σ → Block × σ)

def visitEntry : Entry → σ → Entry × σ
  | .positional v, s =>
    let (v, s) := onExpr v s
    (.positional v, s)
  | .keyed k v, s =>
    let (k, s) := onExpr k s
    let (v, s) := onExpr v s
    (.keyed k v, s)

def visitClause : Clause → σ → Clause × σ
  | .mk cond body, s =>
    let (cond, s) := onExpr cond s
    let (body, s) := onBlock body s
    (.mk cond body, s)

/-- Visits the slots right below an expression, from left to right. -/
def visitExpr : Expr → σ → Expr × σ
  | .binary op l r, s =>
    let (l, s) := onExpr l s
    let (r, s) := onExpr r s
    (.binary op l r, s)
  | .unary op e, s =>
    let (e, s) := onExpr e s
    (.unary op e, s)
  | .member o f, s =>
    let (o, s) := onExpr o s
    (.member o f, s)
  | .index t k, s =>
    let (t, s) := onExpr t s
    let (k, s) := onExpr k s
    (.index t k, s)
  | .call f args, s =>
    let (f, s) := onExpr f s
    let (args, s) := visitList onExpr args s
    (.call f args, s)
  | .table entries, s =>
    let (entries, s) := visitList (visitEntry onExpr) entries s
    (.table entries, s)
  | .function params variadic body, s =>
    let (body, s) := onBlock body s
    (.function params variadic body, s)
  | e, s => (e, s)

/-- Visits the slots right below a statement, from left to right. -/
def visitStmt : Stmt → σ → Stmt × σ
  | .declare id names values, s =>
    let (values, s) := visitList onExpr values s
    (.declare id names values, s)
  | .assign id targets values, s =>
    let (targets, s) := visitList onExpr targets s
    let (values, s) := visitList onExpr values s
    (.assign id targets values, s)
  | .call f args, s =>
    let (f, s) := onExpr f s
    let (args, s) := visitList onExpr args s
    (.call f args, s)
  | .scope body, s =>
    let (body, s) := onBlock body s
    (.scope body, s)
  | .branch clauses orElse, s =>
    let (clauses, s) := visitList (visitClause onExpr onBlock) clauses s
    let (orElse, s) := visitOption onBlock orElse s
    (.branch clauses orElse, s)
  | .whileLoop cond body, s =>
    let (cond, s) := onExpr cond s
    let (body, s) := onBlock body s
    (.whileLoop cond body, s)
  | .repeatLoop body cond, s =>
    let (body, s) := onBlock body s
    let (cond, s) := onExpr cond s
    (.repeatLoop body cond, s)
  | .numericFor var start limit step body, s =>
    let (start, s) := onExpr start s
    let (limit, s) := onExpr limit s
    let (step, s) := visitOption onExpr step s
    let (body, s) := onBlock body s
    (.numericFor var start limit step body, s)
  | .genericFor names exprs body, s =>
    let (exprs, s) := visitList onExpr exprs s
    let (body, s) := onBlock body s
    (.genericFor names exprs body, s)
  | .ret values, s =>
    let (values, s) := visitList onExpr values s
    (.ret values, s)
  | .brk, s => (.brk, s)

end

/-! ## The walk -/

mutual

/-- Settles a block below `depth` levels of expressions. -/
def walkBlock (p : Pass) : Nat → Nat → Block → Progress → Block × Progress
  | 0, _, b, w => (b, w.stop .fuel)
  | fuel + 1, depth, b, w =>
    settle (visitList fun s w => walkStmt p fuel depth s w) p.block maxRounds b w

def walkStmt (p : Pass) : Nat → Nat → Stmt → Progress → Stmt × Progress
  | 0, _, s, w => (s, w.stop .fuel)
  | fuel + 1, depth, s, w =>
    settle (visitStmt (fun e w => walkExpr p fuel depth e w) fun b w => walkBlock p fuel depth b w)
      p.onStmt maxRounds s w

def walkExpr (p : Pass) : Nat → Nat → Expr → Progress → Expr × Progress
  | 0, _, e, w => (e, w.stop .fuel)
  | fuel + 1, depth, e, w =>
    if w.halted then (e, w)
    else if maxDepth ≤ depth then (e, w.stop .nesting)
    else
      settle
        (visitExpr (fun e w => walkExpr p fuel (depth + 1) e w)
          fun b w => walkBlock p fuel (depth + 1) b w)
        p.onExpr maxRounds e w

end

/-! ## Enough fuel -/

mutual

/-- How deep blocks nest below an expression. -/
def exprBlocks : Expr → Nat
  | .nil | .bool _ | .number _ | .string _ | .vararg | .name _ => 0
  | .binary _ l r => max (exprBlocks l) (exprBlocks r)
  | .unary _ e => exprBlocks e
  | .member o _ => exprBlocks o
  | .index t k => max (exprBlocks t) (exprBlocks k)
  | .call f args => max (exprBlocks f) (exprsBlocks args)
  | .table entries => entriesBlocks entries
  | .function _ _ body => stmtsBlocks body + 1

def exprsBlocks : List Expr → Nat
  | [] => 0
  | e :: es => max (exprBlocks e) (exprsBlocks es)

def entriesBlocks : List Entry → Nat
  | [] => 0
  | .positional v :: es => max (exprBlocks v) (entriesBlocks es)
  | .keyed k v :: es => max (max (exprBlocks k) (exprBlocks v)) (entriesBlocks es)

def stmtBlocks : Stmt → Nat
  | .declare _ _ values => exprsBlocks values
  | .assign _ targets values => max (exprsBlocks targets) (exprsBlocks values)
  | .call f args => max (exprBlocks f) (exprsBlocks args)
  | .scope body => stmtsBlocks body + 1
  | .branch clauses none => clausesBlocks clauses
  | .branch clauses (some body) => max (clausesBlocks clauses) (stmtsBlocks body + 1)
  | .whileLoop cond body => max (exprBlocks cond) (stmtsBlocks body + 1)
  | .repeatLoop body cond => max (stmtsBlocks body + 1) (exprBlocks cond)
  | .numericFor _ start limit none body =>
    max (max (exprBlocks start) (exprBlocks limit)) (stmtsBlocks body + 1)
  | .numericFor _ start limit (some step) body =>
    max (max (max (exprBlocks start) (exprBlocks limit)) (exprBlocks step)) (stmtsBlocks body + 1)
  | .genericFor _ exprs body => max (exprsBlocks exprs) (stmtsBlocks body + 1)
  | .ret values => exprsBlocks values
  | .brk => 0

def stmtsBlocks : List Stmt → Nat
  | [] => 0
  | s :: ss => max (stmtBlocks s) (stmtsBlocks ss)

def clausesBlocks : List Clause → Nat
  | [] => 0
  | .mk cond body :: cs => max (max (exprBlocks cond) (stmtsBlocks body + 1)) (clausesBlocks cs)

end

/-- The depth limit lets the walk enter `maxDepth + 1` expressions on its way down.  Before each of
them it may pass through as many blocks as nest in the tree, and through a statement in every one. -/
def enoughFuel (b : Block) : Nat := (2 * (stmtsBlocks b + 1) + 1) * (maxDepth + 1)

end Walk

open Walk

/-- Walks the pass over a block once. -/
def Pass.walk (p : Pass) (b : Block) : Block × Progress :=
  walkBlock p (enoughFuel b) 0 b .start

/-- One walk of a stage over a block: the block it leaves and the number of replacements. -/
def Stage.run (r : Stage) (b : Block) : Block × Nat :=
  let (b, w) := (r.prepare b).walk b
  (b, w.replacements)

end Devirt
