import Devirt.Pass.Walk
import Mathlib.Tactic

set_option autoImplicit false

/-! # The slots below a node

A visit settles the slots right below a node one after the other, and does nothing else: the slots
of what it leaves, and the state it ends in, are those of a visit of the plain list of slots
(`visitExpr_slots`, `visitStmt_slots`).  So what a walk keeps is proved for lists of slots, whatever
the node.

How deep expressions nest (`Block.levels`) and how deep blocks nest (`stmtsBlocks`) are told by the
slots below as well. -/

namespace Devirt

namespace Walk

/-- A place that a walk settles by itself. -/
inductive Slot where
  | expr (e : Expr)
  | block (b : Block)

def entrySlots : Entry → List Slot
  | .positional v => [.expr v]
  | .keyed k v => [.expr k, .expr v]

def clauseSlots : Clause → List Slot
  | .mk cond body => [.expr cond, .block body]

/-- The slots right below an expression, in the order in which they are visited. -/
def exprSlots : Expr → List Slot
  | .binary _ l r => [.expr l, .expr r]
  | .unary _ e => [.expr e]
  | .member o _ => [.expr o]
  | .index t k => [.expr t, .expr k]
  | .call f args => .expr f :: args.map .expr
  | .table entries => entries.flatMap entrySlots
  | .function _ _ body => [.block body]
  | _ => []

/-- The slots right below a statement. -/
def stmtSlots : Stmt → List Slot
  | .declare _ _ values => values.map .expr
  | .assign _ targets values => targets.map .expr ++ values.map .expr
  | .call f args => .expr f :: args.map .expr
  | .scope body => [.block body]
  | .branch clauses orElse => clauses.flatMap clauseSlots ++ orElse.toList.map .block
  | .whileLoop cond body => [.expr cond, .block body]
  | .repeatLoop body cond => [.block body, .expr cond]
  | .numericFor _ start limit step body =>
    .expr start :: .expr limit :: (step.toList.map .expr ++ [.block body])
  | .genericFor _ exprs body => exprs.map .expr ++ [.block body]
  | .ret values => values.map .expr
  | .brk => []

/-! ## Visits -/

section

variable {σ : Type} (onExpr : Expr → σ → Expr × σ) (onBlock : Block → σ → Block × σ)

def visitSlot : Slot → σ → Slot × σ
  | .expr e, s => (.expr (onExpr e s).1, (onExpr e s).2)
  | .block b, s => (.block (onBlock b s).1, (onBlock b s).2)

theorem visitList_append {α : Type} (f : α → σ → α × σ) (xs ys : List α) (s : σ) :
    visitList f (xs ++ ys) s =
      ((visitList f xs s).1 ++ (visitList f ys (visitList f xs s).2).1,
        (visitList f ys (visitList f xs s).2).2) := by
  induction xs generalizing s with
  | nil => rfl
  | cons x xs ih => simp only [List.cons_append, visitList, ih]

/-- Visiting items visits the slots in them. -/
theorem visitList_slots {α : Type} {f : α → σ → α × σ} {slots : α → List Slot}
    (h : ∀ x s, visitList (visitSlot onExpr onBlock) (slots x) s = (slots (f x s).1, (f x s).2))
    (xs : List α) (s : σ) :
    visitList (visitSlot onExpr onBlock) (xs.flatMap slots) s =
      ((visitList f xs s).1.flatMap slots, (visitList f xs s).2) := by
  induction xs generalizing s with
  | nil => rfl
  | cons x xs ih =>
      rw [List.flatMap_cons, visitList_append, h, ih]
      rfl

theorem visitExprs_slots (es : List Expr) (s : σ) :
    visitList (visitSlot onExpr onBlock) (es.map .expr) s =
      ((visitList onExpr es s).1.map .expr, (visitList onExpr es s).2) := by
  induction es generalizing s with
  | nil => rfl
  | cons e es ih => simp only [List.map_cons, visitList, visitSlot, ih]

theorem visitEntry_slots (e : Entry) (s : σ) :
    visitList (visitSlot onExpr onBlock) (entrySlots e) s =
      (entrySlots (visitEntry onExpr e s).1, (visitEntry onExpr e s).2) := by
  cases e <;> rfl

theorem visitClause_slots (c : Clause) (s : σ) :
    visitList (visitSlot onExpr onBlock) (clauseSlots c) s =
      (clauseSlots (visitClause onExpr onBlock c s).1, (visitClause onExpr onBlock c s).2) := by
  cases c
  rfl

/-- A visit of an expression visits its slots. -/
theorem visitExpr_slots (e : Expr) (s : σ) :
    visitList (visitSlot onExpr onBlock) (exprSlots e) s =
      (exprSlots (visitExpr onExpr onBlock e s).1, (visitExpr onExpr onBlock e s).2) := by
  cases e with
  | call f args =>
      simp only [exprSlots, visitList, visitSlot, visitExprs_slots, visitExpr]
  | table entries =>
      rw [exprSlots, visitList_slots onExpr onBlock (visitEntry_slots onExpr onBlock)]
      rfl
  | _ => rfl

/-- A visit of a statement visits its slots. -/
theorem visitStmt_slots (t : Stmt) (s : σ) :
    visitList (visitSlot onExpr onBlock) (stmtSlots t) s =
      (stmtSlots (visitStmt onExpr onBlock t s).1, (visitStmt onExpr onBlock t s).2) := by
  cases t with
  | declare id names values => exact visitExprs_slots onExpr onBlock values s
  | assign id targets values =>
      simp only [stmtSlots, visitList_append, visitExprs_slots, visitStmt]
  | call f args =>
      simp only [stmtSlots, visitList, visitSlot, visitExprs_slots, visitStmt]
  | branch clauses orElse =>
      rw [stmtSlots, visitList_append,
        visitList_slots onExpr onBlock (visitClause_slots onExpr onBlock)]
      cases orElse <;> rfl
  | numericFor var start limit step body => cases step <;> rfl
  | genericFor names exprs body =>
      simp only [stmtSlots, visitList_append, visitExprs_slots, visitStmt]
      rfl
  | ret values => exact visitExprs_slots onExpr onBlock values s
  | _ => rfl

/-- What every item's visit keeps, and brings about for the item, a list's visit keeps, and brings
about for all items. -/
theorem visitList_forall {α : Type} {f : α → σ → α × σ} {P Q : α → Prop} {I : σ → Prop}
    (hf : ∀ x s, P x → I s → I (f x s).2 ∧ Q (f x s).1) {xs : List α} (hx : ∀ x ∈ xs, P x)
    {s : σ} (hs : I s) : I (visitList f xs s).2 ∧ ∀ y ∈ (visitList f xs s).1, Q y := by
  induction xs generalizing s with
  | nil => exact ⟨hs, by simp [visitList]⟩
  | cons x xs ih =>
      obtain ⟨hs', hx'⟩ := hf x s (hx x (by simp)) hs
      obtain ⟨hend, hxs⟩ := ih (fun y hy => hx y (by simp [hy])) hs'
      refine ⟨hend, fun y hy => ?_⟩
      rcases List.mem_cons.mp hy with rfl | hy
      · exact hx'
      · exact hxs y hy

end

/-! ## Levels of expressions -/

mutual

/-- How many levels of expressions lie on top of each other in an expression, function bodies
included.  A name or a literal is one level. -/
def exprLevels : Expr → Nat
  | .nil | .bool _ | .number _ | .string _ | .vararg | .name _ => 1
  | .binary _ l r => max (exprLevels l) (exprLevels r) + 1
  | .unary _ e => exprLevels e + 1
  | .member o _ => exprLevels o + 1
  | .index t k => max (exprLevels t) (exprLevels k) + 1
  | .call f args => max (exprLevels f) (exprsLevels args) + 1
  | .table entries => entriesLevels entries + 1
  | .function _ _ body => stmtsLevels body + 1

def exprsLevels : List Expr → Nat
  | [] => 0
  | e :: es => max (exprLevels e) (exprsLevels es)

def entriesLevels : List Entry → Nat
  | [] => 0
  | .positional v :: es => max (exprLevels v) (entriesLevels es)
  | .keyed k v :: es => max (max (exprLevels k) (exprLevels v)) (entriesLevels es)

def stmtLevels : Stmt → Nat
  | .declare _ _ values => exprsLevels values
  | .assign _ targets values => max (exprsLevels targets) (exprsLevels values)
  | .call f args => max (exprLevels f) (exprsLevels args)
  | .scope body => stmtsLevels body
  | .branch clauses none => clausesLevels clauses
  | .branch clauses (some body) => max (clausesLevels clauses) (stmtsLevels body)
  | .whileLoop cond body => max (exprLevels cond) (stmtsLevels body)
  | .repeatLoop body cond => max (stmtsLevels body) (exprLevels cond)
  | .numericFor _ start limit none body =>
    max (max (exprLevels start) (exprLevels limit)) (stmtsLevels body)
  | .numericFor _ start limit (some step) body =>
    max (max (max (exprLevels start) (exprLevels limit)) (exprLevels step)) (stmtsLevels body)
  | .genericFor _ exprs body => max (exprsLevels exprs) (stmtsLevels body)
  | .ret values => exprsLevels values
  | .brk => 0

def stmtsLevels : List Stmt → Nat
  | [] => 0
  | s :: ss => max (stmtLevels s) (stmtsLevels ss)

def clausesLevels : List Clause → Nat
  | [] => 0
  | .mk cond body :: cs => max (max (exprLevels cond) (stmtsLevels body)) (clausesLevels cs)

end

/-- The levels of expressions in a slot. -/
def Slot.levels : Slot → Nat
  | expr e => exprLevels e
  | block b => stmtsLevels b

variable {n : Nat}

/-- A greatest number of a list is bounded by bounding the items. -/
theorem le_iff_of_cons {α : Type} {P : α → Prop} {g : List α → Nat} (hnil : g [] ≤ n)
    (hcons : ∀ x xs, g (x :: xs) ≤ n ↔ P x ∧ g xs ≤ n) (xs : List α) :
    g xs ≤ n ↔ ∀ x ∈ xs, P x := by
  induction xs with
  | nil => simpa using hnil
  | cons x xs ih => rw [hcons, ih, List.forall_mem_cons]

theorem exprsLevels_le (es : List Expr) : exprsLevels es ≤ n ↔ ∀ e ∈ es, exprLevels e ≤ n :=
  le_iff_of_cons (by simp [exprsLevels]) (by simp [exprsLevels]) es

theorem entriesLevels_le (es : List Entry) :
    entriesLevels es ≤ n ↔ ∀ e ∈ es, ∀ s ∈ entrySlots e, s.levels ≤ n := by
  refine le_iff_of_cons (by simp [entriesLevels]) (fun e es => ?_) es
  cases e <;> simp [entriesLevels, entrySlots, Slot.levels, and_assoc]

theorem clausesLevels_le (cs : List Clause) :
    clausesLevels cs ≤ n ↔ ∀ c ∈ cs, ∀ s ∈ clauseSlots c, s.levels ≤ n := by
  refine le_iff_of_cons (by simp [clausesLevels]) (fun c cs => ?_) cs
  cases c
  simp [clausesLevels, clauseSlots, Slot.levels, and_assoc]

theorem exprLevels_pos (e : Expr) : 0 < exprLevels e := by
  cases e <;> simp [exprLevels]

theorem exprLevels_le (e : Expr) : exprLevels e ≤ n + 1 ↔ ∀ s ∈ exprSlots e, s.levels ≤ n := by
  cases e with
  | table entries =>
      simp only [exprLevels, Nat.add_le_add_iff_right, entriesLevels_le, exprSlots,
        List.forall_mem_flatMap]
  | _ => simp [exprLevels, exprSlots, Slot.levels, exprsLevels_le]

theorem stmtLevels_le (s : Stmt) : stmtLevels s ≤ n ↔ ∀ t ∈ stmtSlots s, t.levels ≤ n := by
  cases s with
  | branch clauses orElse =>
      cases orElse <;>
        simp only [stmtLevels, stmtSlots, List.forall_mem_append, max_le_iff, clausesLevels_le,
          List.forall_mem_flatMap] <;>
        simp [Slot.levels]
  | numericFor var start limit step body =>
      cases step <;> simp [stmtLevels, stmtSlots, Slot.levels]
  | assign id targets values =>
      simp only [stmtLevels, stmtSlots, List.forall_mem_append, max_le_iff, exprsLevels_le,
        List.forall_mem_map, Slot.levels]
  | genericFor names exprs body =>
      simp only [stmtLevels, stmtSlots, List.forall_mem_append, max_le_iff, exprsLevels_le,
        List.forall_mem_map, Slot.levels, List.forall_mem_singleton]
  | _ => simp [stmtLevels, stmtSlots, Slot.levels, exprsLevels_le]

theorem stmtsLevels_le (b : Block) : stmtsLevels b ≤ n ↔ ∀ s ∈ b, stmtLevels s ≤ n :=
  le_iff_of_cons (by simp [stmtsLevels]) (by simp [stmtsLevels]) b

/-! ## Levels of blocks -/

/-- How many blocks lie inside each other in a slot. -/
def Slot.blocks : Slot → Nat
  | expr e => exprBlocks e
  | block b => stmtsBlocks b + 1

theorem exprsBlocks_le (es : List Expr) : exprsBlocks es ≤ n ↔ ∀ e ∈ es, exprBlocks e ≤ n :=
  le_iff_of_cons (by simp [exprsBlocks]) (by simp [exprsBlocks]) es

theorem entriesBlocks_le (es : List Entry) :
    entriesBlocks es ≤ n ↔ ∀ e ∈ es, ∀ s ∈ entrySlots e, s.blocks ≤ n := by
  refine le_iff_of_cons (by simp [entriesBlocks]) (fun e es => ?_) es
  cases e <;> simp [entriesBlocks, entrySlots, Slot.blocks, and_assoc]

theorem clausesBlocks_le (cs : List Clause) :
    clausesBlocks cs ≤ n ↔ ∀ c ∈ cs, ∀ s ∈ clauseSlots c, s.blocks ≤ n := by
  refine le_iff_of_cons (by simp [clausesBlocks]) (fun c cs => ?_) cs
  cases c
  simp [clausesBlocks, clauseSlots, Slot.blocks, and_assoc]

theorem exprBlocks_le (e : Expr) : exprBlocks e ≤ n ↔ ∀ s ∈ exprSlots e, s.blocks ≤ n := by
  cases e with
  | table entries =>
      simp only [exprBlocks, entriesBlocks_le, exprSlots, List.forall_mem_flatMap]
  | _ => simp [exprBlocks, exprSlots, Slot.blocks, exprsBlocks_le]

theorem stmtBlocks_le (s : Stmt) : stmtBlocks s ≤ n ↔ ∀ t ∈ stmtSlots s, t.blocks ≤ n := by
  cases s with
  | branch clauses orElse =>
      cases orElse <;>
        simp only [stmtBlocks, stmtSlots, List.forall_mem_append, max_le_iff, clausesBlocks_le,
          List.forall_mem_flatMap] <;>
        simp [Slot.blocks]
  | numericFor var start limit step body =>
      cases step <;> simp [stmtBlocks, stmtSlots, Slot.blocks]
  | assign id targets values =>
      simp only [stmtBlocks, stmtSlots, List.forall_mem_append, max_le_iff, exprsBlocks_le,
        List.forall_mem_map, Slot.blocks]
  | genericFor names exprs body =>
      simp only [stmtBlocks, stmtSlots, List.forall_mem_append, max_le_iff, exprsBlocks_le,
        List.forall_mem_map, Slot.blocks, List.forall_mem_singleton]
  | _ => simp [stmtBlocks, stmtSlots, Slot.blocks, exprsBlocks_le]

theorem stmtsBlocks_le (b : Block) : stmtsBlocks b ≤ n ↔ ∀ s ∈ b, stmtBlocks s ≤ n :=
  le_iff_of_cons (by simp [stmtsBlocks]) (by simp [stmtsBlocks]) b

/-- A walk is given two units of fuel for each level of blocks, one for each level of expressions, and those
for the block and its statements. -/
theorem le_enoughFuel (b : Block) (depth : Nat) :
    2 * stmtsBlocks b + maxDepth + 3 ≤ enoughFuel b + depth := by
  unfold enoughFuel maxDepth
  omega

/-- There is fuel for the block, for its statements, and for all levels of expressions below them. -/
theorem exists_enoughFuel (b : Block) : ∃ fuel, maxDepth ≤ fuel ∧ enoughFuel b = fuel + 1 + 1 := by
  have henough : maxDepth + 2 ≤ enoughFuel b := by
    have := le_enoughFuel b 0
    omega
  exact ⟨enoughFuel b - 2, by omega, by omega⟩

end Walk

/-- How deep the expressions of a block nest, counted through function bodies. -/
def Block.levels (b : Block) : Nat := Walk.stmtsLevels b

end Devirt
