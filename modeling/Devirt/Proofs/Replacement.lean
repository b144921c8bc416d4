import Devirt.Pass.Pipeline

set_option autoImplicit false

/-! # Walks as sequences of replacements

`BlockStep p b b'` says that `b'` is `b` with the node of one slot, at any depth, replaced by what
the pass `p` answers for it.  `Rewrites R n x y` is a sequence of `n` such steps.

A walk is such a sequence, of exactly as many steps as it counts (`Pass.walk_rewrites`), whichever
of its limits it meets on the way: a slot that is given up, a halted walk and a walk that ends by
itself differ only in where the sequence stops.  So a property of blocks that one replacement
preserves is preserved by a walk (`Pass.walk_preserves`); and what the walks of all stages preserve,
a run of the pipeline preserves (`Pipeline.run_preserves`). -/

namespace Devirt

/-! ## One replacement -/

/-- One item of a list changes by a step of `R`. -/
inductive ListStep {α : Type} (R : α → α → Prop) : List α → List α → Prop where
  | head {x y : α} {xs : List α} : R x y → ListStep R (x :: xs) (y :: xs)
  | tail {x : α} {xs ys : List α} : ListStep R xs ys → ListStep R (x :: xs) (x :: ys)

mutual

/-- The pass replaces one node at or below an expression. -/
inductive ExprStep (p : Pass) : Expr → Expr → Prop where
  | hook {e e' : Expr} : p.onExpr e = some e' → ExprStep p e e'
  | binaryLeft {op : BinaryOp} {l l' r : Expr} :
      ExprStep p l l' → ExprStep p (.binary op l r) (.binary op l' r)
  | binaryRight {op : BinaryOp} {l r r' : Expr} :
      ExprStep p r r' → ExprStep p (.binary op l r) (.binary op l r')
  | unary {op : UnaryOp} {e e' : Expr} : ExprStep p e e' → ExprStep p (.unary op e) (.unary op e')
  | member {o o' : Expr} {f : String} : ExprStep p o o' → ExprStep p (.member o f) (.member o' f)
  | indexTable {t t' k : Expr} : ExprStep p t t' → ExprStep p (.index t k) (.index t' k)
  | indexKey {t k k' : Expr} : ExprStep p k k' → ExprStep p (.index t k) (.index t k')
  | callFunc {f f' : Expr} {args : List Expr} :
      ExprStep p f f' → ExprStep p (.call f args) (.call f' args)
  | callArgs {f : Expr} {args args' : List Expr} :
      ListStep (ExprStep p) args args' → ExprStep p (.call f args) (.call f args')
  | table {entries entries' : List Entry} :
      ListStep (EntryStep p) entries entries' → ExprStep p (.table entries) (.table entries')
  | function {params : List String} {variadic : Bool} {body body' : Block} :
      BlockStep p body body' →
      ExprStep p (.function params variadic body) (.function params variadic body')

inductive EntryStep (p : Pass) : Entry → Entry → Prop where
  | positional {v v' : Expr} : ExprStep p v v' → EntryStep p (.positional v) (.positional v')
  | key {k k' v : Expr} : ExprStep p k k' → EntryStep p (.keyed k v) (.keyed k' v)
  | value {k v v' : Expr} : ExprStep p v v' → EntryStep p (.keyed k v) (.keyed k v')

/-- The pass replaces a statement or one node below it. -/
inductive StmtStep (p : Pass) : Stmt → Stmt → Prop where
  | hook {s s' : Stmt} : p.onStmt s = some s' → StmtStep p s s'
  | declare {id : NodeId} {names : List String} {values values' : List Expr} :
      ListStep (ExprStep p) values values' →
      StmtStep p (.declare id names values) (.declare id names values')
  | assignTargets {id : NodeId} {targets targets' values : List Expr} :
      ListStep (ExprStep p) targets targets' →
      StmtStep p (.assign id targets values) (.assign id targets' values)
  | assignValues {id : NodeId} {targets values values' : List Expr} :
      ListStep (ExprStep p) values values' →
      StmtStep p (.assign id targets values) (.assign id targets values')
  | callFunc {f f' : Expr} {args : List Expr} :
      ExprStep p f f' → StmtStep p (.call f args) (.call f' args)
  | callArgs {f : Expr} {args args' : List Expr} :
      ListStep (ExprStep p) args args' → StmtStep p (.call f args) (.call f args')
  | scope {body body' : Block} : BlockStep p body body' → StmtStep p (.scope body) (.scope body')
  | clauses {clauses clauses' : List Clause} {orElse : Option Block} :
      ListStep (ClauseStep p) clauses clauses' →
      StmtStep p (.branch clauses orElse) (.branch clauses' orElse)
  | orElse {clauses : List Clause} {body body' : Block} :
      BlockStep p body body' →
      StmtStep p (.branch clauses (some body)) (.branch clauses (some body'))
  | whileCond {cond cond' : Expr} {body : Block} :
      ExprStep p cond cond' → StmtStep p (.whileLoop cond body) (.whileLoop cond' body)
  | whileBody {cond : Expr} {body body' : Block} :
      BlockStep p body body' → StmtStep p (.whileLoop cond body) (.whileLoop cond body')
  | repeatBody {body body' : Block} {cond : Expr} :
      BlockStep p body body' → StmtStep p (.repeatLoop body cond) (.repeatLoop body' cond)
  | repeatCond {body : Block} {cond cond' : Expr} :
      ExprStep p cond cond' → StmtStep p (.repeatLoop body cond) (.repeatLoop body cond')
  | forStart {var : String} {start start' limit : Expr} {step : Option Expr} {body : Block} :
      ExprStep p start start' →
      StmtStep p (.numericFor var start limit step body) (.numericFor var start' limit step body)
  | forLimit {var : String} {start limit limit' : Expr} {step : Option Expr} {body : Block} :
      ExprStep p limit limit' →
      StmtStep p (.numericFor var start limit step body) (.numericFor var start limit' step body)
  | forStep {var : String} {start limit step step' : Expr} {body : Block} :
      ExprStep p step step' →
      StmtStep p (.numericFor var start limit (some step) body)
        (.numericFor var start limit (some step') body)
  | forBody {var : String} {start limit : Expr} {step : Option Expr} {body body' : Block} :
      BlockStep p body body' →
      StmtStep p (.numericFor var start limit step body) (.numericFor var start limit step body')
  | genericExprs {names : List String} {exprs exprs' : List Expr} {body : Block} :
      ListStep (ExprStep p) exprs exprs' →
      StmtStep p (.genericFor names exprs body) (.genericFor names exprs' body)
  | genericBody {names : List String} {exprs : List Expr} {body body' : Block} :
      BlockStep p body body' →
      StmtStep p (.genericFor names exprs body) (.genericFor names exprs body')
  | ret {values values' : List Expr} :
      ListStep (ExprStep p) values values' → StmtStep p (.ret values) (.ret values')

inductive ClauseStep (p : Pass) : Clause → Clause → Prop where
  | cond {cond cond' : Expr} {body : Block} :
      ExprStep p cond cond' → ClauseStep p (.mk cond body) (.mk cond' body)
  | body {cond : Expr} {body body' : Block} :
      BlockStep p body body' → ClauseStep p (.mk cond body) (.mk cond body')

/-- The pass replaces a block or one node below it. -/
inductive BlockStep (p : Pass) : Block → Block → Prop where
  | hook {b b' : Block} : p.block b = some b' → BlockStep p b b'
  | items {b b' : Block} : ListStep (StmtStep p) b b' → BlockStep p b b'

end

/-! ## Sequences of replacements -/

/-- `n` steps of `R` lead from one tree to another. -/
inductive Rewrites {α : Type} (R : α → α → Prop) : Nat → α → α → Prop where
  | refl (x : α) : Rewrites R 0 x x
  | step {n : Nat} {x y z : α} : R x y → Rewrites R n y z → Rewrites R (n + 1) x z

namespace Rewrites

variable {α β : Type} {R : α → α → Prop} {S : β → β → Prop}

theorem trans {m n : Nat} {x y z : α} (h : Rewrites R m x y) (h' : Rewrites R n y z) :
    Rewrites R (m + n) x z := by
  induction h with
  | refl x => simpa using h'
  | step hs _ ih =>
      rw [Nat.add_right_comm]
      exact .step hs (ih h')

/-- A sequence below a node is a sequence of the node. -/
theorem lift {n : Nat} {x y : α} (h : Rewrites R n x y) (f : α → β)
    (hf : ∀ x y, R x y → S (f x) (f y)) : Rewrites S n (f x) (f y) := by
  induction h with
  | refl x => exact .refl _
  | step hs _ ih => exact .step (hf _ _ hs) ih

theorem preserves {P : α → Prop} (hP : ∀ x y, R x y → P x → P y) {n : Nat} {x y : α}
    (h : Rewrites R n x y) (hx : P x) : P y := by
  induction h with
  | refl x => exact hx
  | step hs _ ih => exact ih (hP _ _ hs hx)

end Rewrites

/-! ## Visits and settled slots -/

namespace Walk

/-- What a visit makes of a tree `x` in the state `w`: a sequence of as many steps as it counts. -/
def Traces {α : Type} (R : α → α → Prop) (x : α) (w : Progress) (r : α × Progress) : Prop :=
  ∃ n, Rewrites R n x r.1 ∧ r.2.replacements = w.replacements + n

namespace Traces

variable {α β : Type} {R : α → α → Prop} {S : β → β → Prop}

/-- Nothing replaced, nothing counted. -/
theorem stay {x : α} {w w' : Progress} (h : w'.replacements = w.replacements) :
    Traces R x w (x, w') :=
  ⟨0, .refl x, by simpa using h⟩

theorem trans {x y : α} {w w' : Progress} {r : α × Progress} (h : Traces R x w (y, w'))
    (h' : Traces R y w' r) : Traces R x w r := by
  obtain ⟨m, hm, hw⟩ := h
  obtain ⟨n, hn, hr⟩ := h'
  refine ⟨m + n, hm.trans hn, ?_⟩
  simp only at hw
  omega

theorem lift {x : α} {w : Progress} {r : α × Progress} (h : Traces R x w r) (f : α → β)
    (hf : ∀ x y, R x y → S (f x) (f y)) : Traces S (f x) w (f r.1, r.2) := by
  obtain ⟨n, hn, hr⟩ := h
  exact ⟨n, hn.lift f hf, hr⟩

end Traces

theorem replacements_stop (w : Progress) (cause : Halt) :
    (w.stop cause).replacements = w.replacements := by
  unfold Progress.stop
  split <;> rfl

/-- A slot is settled by visits and by answers of its hook. -/
theorem settle_traces {α : Type} {R : α → α → Prop} {visit : α → Progress → α × Progress}
    {hook : α → Option α} (hvisit : ∀ x w, Traces R x w (visit x w))
    (hhook : ∀ x y, hook x = some y → R x y) (n : Nat) (x : α) (w : Progress) :
    Traces R x w (settle visit hook n x w) := by
  -- on the number of rounds that are left
  induction n generalizing x w with
  | zero => exact .stay rfl
  | succ n ih =>
      have hv := hvisit x w
      rcases settle_succ visit hook n x w with ⟨hlast, -⟩ | ⟨y, -, hy, hagain⟩
      · rw [hlast]
        exact hv
      · have hstep : Traces R (visit x w).1 (visit x w).2 (y, (visit x w).2.replaced) :=
          ⟨1, .step (hhook _ y hy) (.refl y), rfl⟩
        rw [hagain]
        exact hv.trans (hstep.trans (ih y (visit x w).2.replaced))

theorem visitList_traces {α : Type} {R : α → α → Prop} {f : α → Progress → α × Progress}
    (hf : ∀ x w, Traces R x w (f x w)) (xs : List α) (w : Progress) :
    Traces (ListStep R) xs w (visitList f xs w) := by
  induction xs generalizing w with
  | nil => exact .stay rfl
  | cons x xs ih =>
      have hx := (hf x w).lift (S := ListStep R) (· :: xs) fun _ _ => .head
      have hxs := (ih (f x w).2).lift (S := ListStep R) ((f x w).1 :: ·) fun _ _ => .tail
      exact hx.trans hxs

section

variable {p : Pass} {onExpr : Expr → Progress → Expr × Progress}
  {onBlock : Block → Progress → Block × Progress}
  (hE : ∀ e w, Traces (ExprStep p) e w (onExpr e w))
  (hB : ∀ b w, Traces (BlockStep p) b w (onBlock b w))

include hE in
theorem visitEntry_traces (e : Entry) (w : Progress) :
    Traces (EntryStep p) e w (visitEntry onExpr e w) := by
  cases e with
  | positional v => exact (hE v w).lift (S := EntryStep p) .positional fun _ _ => .positional
  | keyed k v =>
      have hk := (hE k w).lift (S := EntryStep p) (.keyed · v) fun _ _ => .key
      have hv := (hE v (onExpr k w).2).lift (S := EntryStep p) (.keyed (onExpr k w).1 ·)
        fun _ _ => .value
      exact hk.trans hv

include hE hB

theorem visitClause_traces (c : Clause) (w : Progress) :
    Traces (ClauseStep p) c w (visitClause onExpr onBlock c w) := by
  cases c with
  | mk cond body =>
      have hc := (hE cond w).lift (S := ClauseStep p) (.mk · body) fun _ _ => .cond
      have hb := (hB body (onExpr cond w).2).lift (S := ClauseStep p) (.mk (onExpr cond w).1 ·)
        fun _ _ => .body
      exact hc.trans hb

theorem visitExpr_traces (e : Expr) (w : Progress) :
    Traces (ExprStep p) e w (visitExpr onExpr onBlock e w) := by
  cases e with
  | binary op l r =>
      have hl := (hE l w).lift (S := ExprStep p) (.binary op · r) fun _ _ => .binaryLeft
      have hr := (hE r (onExpr l w).2).lift (S := ExprStep p) (.binary op (onExpr l w).1 ·)
        fun _ _ => .binaryRight
      exact hl.trans hr
  | unary op e => exact (hE e w).lift (S := ExprStep p) (.unary op ·) fun _ _ => .unary
  | member o f => exact (hE o w).lift (S := ExprStep p) (.member · f) fun _ _ => .member
  | index t k =>
      have ht := (hE t w).lift (S := ExprStep p) (.index · k) fun _ _ => .indexTable
      have hk := (hE k (onExpr t w).2).lift (S := ExprStep p) (.index (onExpr t w).1 ·)
        fun _ _ => .indexKey
      exact ht.trans hk
  | call f args =>
      have hf := (hE f w).lift (S := ExprStep p) (.call · args) fun _ _ => .callFunc
      have has := (visitList_traces hE args (onExpr f w).2).lift (S := ExprStep p)
        (.call (onExpr f w).1 ·) fun _ _ => .callArgs
      exact hf.trans has
  | table entries =>
      have hes := visitList_traces (visitEntry_traces hE) entries w
      exact hes.lift (S := ExprStep p) .table fun _ _ => .table
  | function params variadic body =>
      exact (hB body w).lift (S := ExprStep p) (.function params variadic ·) fun _ _ => .function
  | nil | bool _ | number _ | string _ | vararg | name _ => exact .stay rfl

theorem visitStmt_traces (s : Stmt) (w : Progress) :
    Traces (StmtStep p) s w (visitStmt onExpr onBlock s w) := by
  cases s with
  | declare id names values =>
      have hvs := visitList_traces hE values w
      exact hvs.lift (S := StmtStep p) (.declare id names ·) fun _ _ => .declare
  | assign id targets values =>
      have ht := (visitList_traces hE targets w).lift (S := StmtStep p) (.assign id · values)
        fun _ _ => .assignTargets
      have hv := (visitList_traces hE values (visitList onExpr targets w).2).lift
        (S := StmtStep p) (.assign id (visitList onExpr targets w).1 ·) fun _ _ => .assignValues
      exact ht.trans hv
  | call f args =>
      have hf := (hE f w).lift (S := StmtStep p) (.call · args) fun _ _ => .callFunc
      have has := (visitList_traces hE args (onExpr f w).2).lift (S := StmtStep p)
        (.call (onExpr f w).1 ·) fun _ _ => .callArgs
      exact hf.trans has
  | scope body => exact (hB body w).lift (S := StmtStep p) .scope fun _ _ => .scope
  | branch clauses orElse =>
      have hc := (visitList_traces (visitClause_traces hE hB) clauses w).lift (S := StmtStep p)
        (.branch · orElse) fun _ _ => .clauses
      cases orElse with
      | none => exact hc
      | some body =>
          exact hc.trans ((hB body _).lift (S := StmtStep p) (fun b => .branch _ (some b))
            fun _ _ => .orElse)
  | whileLoop cond body =>
      have hc := (hE cond w).lift (S := StmtStep p) (.whileLoop · body) fun _ _ => .whileCond
      have hb := (hB body (onExpr cond w).2).lift (S := StmtStep p)
        (.whileLoop (onExpr cond w).1 ·) fun _ _ => .whileBody
      exact hc.trans hb
  | repeatLoop body cond =>
      have hb := (hB body w).lift (S := StmtStep p) (.repeatLoop · cond) fun _ _ => .repeatBody
      have hc := (hE cond (onBlock body w).2).lift (S := StmtStep p)
        (.repeatLoop (onBlock body w).1 ·) fun _ _ => .repeatCond
      exact hb.trans hc
  | numericFor var start limit step body =>
      have hs := (hE start w).lift (S := StmtStep p) (.numericFor var · limit step body)
        fun _ _ => .forStart
      have hl := (hE limit (onExpr start w).2).lift (S := StmtStep p)
        (.numericFor var (onExpr start w).1 · step body) fun _ _ => .forLimit
      refine hs.trans (hl.trans ?_)
      -- a step that is missing is no slot
      cases step with
      | none =>
          exact (hB body _).lift (S := StmtStep p) (.numericFor var _ _ none ·) fun _ _ => .forBody
      | some step =>
          have ht := (hE step (onExpr limit (onExpr start w).2).2).lift (S := StmtStep p)
            (fun e => .numericFor var (onExpr start w).1 (onExpr limit (onExpr start w).2).1
              (some e) body) fun _ _ => .forStep
          exact ht.trans ((hB body _).lift (S := StmtStep p) (.numericFor var _ _ (some _) ·)
            fun _ _ => .forBody)
  | genericFor names exprs body =>
      have he := (visitList_traces hE exprs w).lift (S := StmtStep p) (.genericFor names · body)
        fun _ _ => .genericExprs
      have hb := (hB body (visitList onExpr exprs w).2).lift (S := StmtStep p)
        (.genericFor names (visitList onExpr exprs w).1 ·) fun _ _ => .genericBody
      exact he.trans hb
  | ret values => exact (visitList_traces hE values w).lift (S := StmtStep p) .ret fun _ _ => .ret
  | brk => exact .stay rfl

end

/-! ## The walk -/

/-- Whatever the fuel and the depth, walking an expression, a statement or a block is a sequence
of replacements. -/
theorem walk_traces (p : Pass) (fuel : Nat) :
    (∀ depth e w, Traces (ExprStep p) e w (walkExpr p fuel depth e w)) ∧
      (∀ depth s w, Traces (StmtStep p) s w (walkStmt p fuel depth s w)) ∧
      ∀ depth b w, Traces (BlockStep p) b w (walkBlock p fuel depth b w) := by
  -- on the fuel, which each of the three walks passes on to the others with one less
  induction fuel with
  | zero =>
      refine ⟨?_, ?_, ?_⟩
      · intro depth e w
        rw [walkExpr]
        exact .stay (replacements_stop w .fuel)
      · intro depth s w
        rw [walkStmt]
        exact .stay (replacements_stop w .fuel)
      · intro depth b w
        rw [walkBlock]
        exact .stay (replacements_stop w .fuel)
  | succ fuel ih =>
      obtain ⟨hE, hS, hB⟩ := ih
      refine ⟨?_, ?_, ?_⟩
      · intro depth e w
        have hvisit := visitExpr_traces (hE (depth + 1)) (hB (depth + 1))
        rw [walkExpr]
        split
        · exact .stay rfl
        · split
          · exact .stay (replacements_stop w .nesting)
          · exact settle_traces hvisit (fun _ _ => .hook) _ e w
      · intro depth s w
        have hvisit := visitStmt_traces (hE depth) (hB depth)
        rw [walkStmt]
        exact settle_traces hvisit (fun _ _ => .hook) _ s w
      · intro depth b w
        have hvisit : ∀ b w, Traces (BlockStep p) b w (visitList (walkStmt p fuel depth) b w) := by
          intro b w
          obtain ⟨n, hn, hw⟩ := visitList_traces (hS depth) b w
          exact ⟨n, hn.lift id fun _ _ => .items, hw⟩
        rw [walkBlock]
        exact settle_traces hvisit (fun _ _ => .hook) _ b w

end Walk

/-- A walk is a sequence of as many replacements as it counts. -/
theorem Pass.walk_rewrites (p : Pass) (b : Block) :
    Rewrites (BlockStep p) (p.walk b).2.replacements b (p.walk b).1 := by
  obtain ⟨n, hn, hw⟩ := (Walk.walk_traces p (Walk.enoughFuel b)).2.2 0 b .start
  have h : (p.walk b).2.replacements = n := by
    rw [show (p.walk b).2.replacements = _ from hw]
    exact Nat.zero_add n
  rw [h]
  exact hn

/-- What one replacement preserves, a walk preserves. -/
theorem Pass.walk_preserves {P : Block → Prop} {p : Pass}
    (hP : ∀ b b', BlockStep p b b' → P b → P b') {b : Block} (h : P b) : P (p.walk b).1 :=
  (p.walk_rewrites b).preserves hP h

/-! ## Pipelines -/

namespace Pipeline

variable {P : Block → Prop} {rs : List Stage}
  (hP : ∀ r ∈ rs, ∀ b, P b → P ((r.prepare b).walk b).1)

include hP

theorem round_preserves {b : Block} (h : P b) (n : Nat) : P (round rs b n).1 := by
  induction rs generalizing b n with
  | nil => exact h
  | cons r rs ih =>
      have hr : P ((r.prepare b).walk b).1 := hP r (by simp) b h
      rw [round]
      generalize (r.prepare b).walk b = v at hr
      obtain ⟨b', w⟩ := v
      simp only
      split
      · exact hr
      · exact ih (fun r' hr' => hP r' (by simp [hr'])) hr _

theorem rounds_preserves (remaining : Nat) {b : Block} (h : P b) (report : RunReport) :
    P (rounds rs remaining b report).1 := by
  induction remaining generalizing b report with
  | zero => exact h
  | succ remaining ih =>
      have hr := round_preserves hP h 0
      rw [rounds]
      generalize round rs b 0 = v at hr
      obtain ⟨b', n, halted⟩ := v
      simp only
      split
      · exact hr
      · exact ih hr _

end Pipeline

/-- What the walks of all stages preserve, a run preserves, however many rounds it takes. -/
theorem Pipeline.run_preserves {P : Block → Prop} (l : Pipeline)
    (hP : ∀ r ∈ l.stages, ∀ b, P b → P ((r.prepare b).walk b).1) {b : Block} (h : P b) :
    P (l.run b).1 :=
  rounds_preserves hP l.maxIterations h ⟨0, 0, false⟩

end Devirt
