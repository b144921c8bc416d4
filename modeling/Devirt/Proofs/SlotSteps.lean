import Devirt.Proofs.Replacement
import Devirt.Proofs.Shells

set_option autoImplicit false

/-! # A replacement, told by slots

A replacement is the answer of the hook for the node itself, or a replacement in one of its slots, and
then the shell stays as it was (`ExprStep.cases_slots`, `StmtStep.cases_slots`).

Slots are nested less deep than the node that they belong to, which gives an induction over a tree that
has one case for expressions and one for blocks (`Slot.induction`). -/

namespace Devirt

open Walk

/-! ## Steps in lists -/

namespace ListStep

variable {α β : Type} {R : α → α → Prop} {S : β → β → Prop} {xs ys : List α}

theorem exists_mem (h : ListStep R xs ys) : ∃ x ∈ xs, ∃ y, R x y := by
  induction h with
  | head h => exact ⟨_, List.mem_cons_self, _, h⟩
  | tail _ ih =>
      obtain ⟨x, hx, hstep⟩ := ih
      exact ⟨x, List.mem_cons_of_mem _ hx, hstep⟩

/-- What a step keeps of the items, it keeps of the list. -/
theorem forall_mem {P : α → Prop} (h : ListStep R xs ys) (hR : ∀ x ∈ xs, ∀ y, R x y → P x → P y)
    (hx : ∀ x ∈ xs, P x) : ∀ y ∈ ys, P y := by
  induction h with
  | head h =>
      obtain ⟨hhead, htail⟩ := List.forall_mem_cons.mp hx
      exact List.forall_mem_cons.mpr ⟨hR _ List.mem_cons_self _ h hhead, htail⟩
  | tail _ ih =>
      obtain ⟨hhead, htail⟩ := List.forall_mem_cons.mp hx
      exact List.forall_mem_cons.mpr ⟨hhead, ih (fun x hm => hR x (List.mem_cons_of_mem _ hm)) htail⟩

theorem map (h : ListStep R xs ys) (f : α → β) (hf : ∀ x y, R x y → S (f x) (f y)) :
    ListStep S (xs.map f) (ys.map f) := by
  induction h with
  | head h => exact .head (hf _ _ h)
  | tail _ ih => exact .tail ih

theorem append_left (h : ListStep R xs ys) (zs : List α) : ListStep R (xs ++ zs) (ys ++ zs) := by
  induction h with
  | head h => exact .head h
  | tail _ ih => exact .tail ih

theorem append_right (h : ListStep R xs ys) (zs : List α) : ListStep R (zs ++ xs) (zs ++ ys) := by
  induction zs with
  | nil => exact h
  | cons z zs ih => exact .tail ih

theorem flatMap (h : ListStep R xs ys) (f : α → List β) (hf : ∀ x y, R x y → ListStep S (f x) (f y)) :
    ListStep S (xs.flatMap f) (ys.flatMap f) := by
  induction h with
  | head h => exact (hf _ _ h).append_left _
  | tail _ ih => exact ih.append_right _

/-- What a step leaves alone in the items it leaves alone in the list. -/
theorem visitList_eq (h : ListStep R xs ys) {f : α → Unit → α × Unit}
    (hf : ∀ x y, R x y → (f x ()).1 = (f y ()).1) : (visitList f xs ()).1 = (visitList f ys ()).1 := by
  induction h with
  | head h => exact congrArg (· :: _) (hf _ _ h)
  | tail _ ih => exact congrArg (_ :: ·) ih

end ListStep

/-! ## Steps in slots -/

namespace Walk

/-- The pass replaces one node at or below a slot. -/
inductive SlotStep (p : Pass) : Slot → Slot → Prop where
  | expr {e e' : Expr} : ExprStep p e e' → SlotStep p (.expr e) (.expr e')
  | block {b b' : Block} : BlockStep p b b' → SlotStep p (.block b) (.block b')

end Walk

section

variable {p : Pass}

theorem exprs_slots {es es' : List Expr} (h : ListStep (ExprStep p) es es') :
    ListStep (SlotStep p) (es.map Slot.expr) (es'.map Slot.expr) :=
  h.map Slot.expr fun _ _ => .expr

theorem exprs_emptied {es es' : List Expr} (h : ListStep (ExprStep p) es es') :
    (visitList (fun (_ : Expr) _ => (Expr.nil, ())) es' ()).1
      = (visitList (fun (_ : Expr) _ => (Expr.nil, ())) es ()).1 :=
  (h.visitList_eq fun _ _ _ => rfl).symm

theorem entry_slots {e e' : Entry} (h : EntryStep p e e') :
    ListStep (SlotStep p) (entrySlots e) (entrySlots e') := by
  cases h with
  | positional h | key h => exact .head (.expr h)
  | value h => exact .tail (.head (.expr h))

theorem clause_slots {c c' : Clause} (h : ClauseStep p c c') :
    ListStep (SlotStep p) (clauseSlots c) (clauseSlots c') := by
  cases h with
  | cond h => exact .head (.expr h)
  | body h => exact .tail (.head (.block h))

/-- A replacement in an expression is the answer of the hook, or is made in one of the slots. -/
theorem ExprStep.cases_slots {e e' : Expr} (h : ExprStep p e e') :
    p.onExpr e = some e' ∨
      e'.shell = e.shell ∧ ListStep (SlotStep p) (exprSlots e) (exprSlots e') := by
  cases h with
  | hook h => exact .inl h
  | binaryLeft h | unary h | member h | indexTable h | callFunc h =>
      exact .inr ⟨rfl, .head (.expr h)⟩
  | binaryRight h | indexKey h => exact .inr ⟨rfl, .tail (.head (.expr h))⟩
  | callArgs h =>
      refine .inr ⟨?_, .tail (exprs_slots h)⟩
      simp only [Expr.shell, visitExpr, exprs_emptied h]
  | table h =>
      refine .inr ⟨?_, h.flatMap entrySlots fun _ _ => entry_slots⟩
      have hshell := h.visitList_eq (f := visitEntry fun _ _ => (.nil, ())) fun _ _ h => by
        cases h <;> rfl
      simp only [Expr.shell, visitExpr, hshell]
  | function h => exact .inr ⟨rfl, .head (.block h)⟩

/-- A replacement in a statement is the answer of the hook, or is made in one of the slots. -/
theorem StmtStep.cases_slots {s s' : Stmt} (h : StmtStep p s s') :
    p.onStmt s = some s' ∨
      s'.shell = s.shell ∧ ListStep (SlotStep p) (stmtSlots s) (stmtSlots s') := by
  cases h with
  | hook h => exact .inl h
  | declare h | ret h =>
      refine .inr ⟨?_, exprs_slots h⟩
      simp only [Stmt.shell, visitStmt, exprs_emptied h]
  | assignTargets h | genericExprs h =>
      refine .inr ⟨?_, (exprs_slots h).append_left _⟩
      simp only [Stmt.shell, visitStmt, exprs_emptied h]
  | assignValues h =>
      refine .inr ⟨?_, (exprs_slots h).append_right _⟩
      simp only [Stmt.shell, visitStmt, exprs_emptied h]
  | callFunc h | whileCond h | forStart h => exact .inr ⟨rfl, .head (.expr h)⟩
  | callArgs h =>
      refine .inr ⟨?_, .tail (exprs_slots h)⟩
      simp only [Stmt.shell, visitStmt, exprs_emptied h]
  | scope h | repeatBody h => exact .inr ⟨rfl, .head (.block h)⟩
  | clauses h =>
      refine .inr ⟨?_, (h.flatMap clauseSlots fun _ _ => clause_slots).append_left _⟩
      have hshell := h.visitList_eq (f := visitClause (fun _ _ => (.nil, ())) fun _ _ => ([], ()))
        fun _ _ h => by cases h <;> rfl
      simp only [Stmt.shell, visitStmt, hshell]
  | orElse h => exact .inr ⟨rfl, ListStep.append_right (.head (.block h)) _⟩
  | whileBody h => exact .inr ⟨rfl, .tail (.head (.block h))⟩
  | repeatCond h | forLimit h => exact .inr ⟨rfl, .tail (.head (.expr h))⟩
  | forStep h => exact .inr ⟨rfl, .tail (.tail (.head (.expr h)))⟩
  | forBody h =>
      exact .inr ⟨rfl, .tail (.tail (ListStep.append_right (.head (.block h)) _))⟩
  | genericBody h => exact .inr ⟨rfl, ListStep.append_right (.head (.block h)) _⟩

end

/-! ## Induction -/

/-- A fact about a slot follows from the same fact about the slots right below it. -/
theorem Walk.Slot.induction {P : Slot → Prop} (expr : ∀ e, (∀ t ∈ exprSlots e, P t) → P (.expr e))
    (block : ∀ b : Block, (∀ s ∈ b, ∀ t ∈ stmtSlots s, P t) → P (.block b)) : (t : Slot) → P t := by
  -- on the levels of expressions and blocks together, since a block is no level of expressions
  suffices h : ∀ n, ∀ t : Slot, t.levels + t.blocks ≤ n → P t from fun t => h _ t le_rfl
  intro n
  induction n with
  | zero =>
      intro t ht
      cases t with
      | expr e =>
          have := exprLevels_pos e
          simp only [Slot.levels] at ht
          omega
      | block b =>
          simp only [Slot.blocks] at ht
          omega
  | succ n ih =>
      intro t ht
      cases t with
      | expr e =>
          have hpos := exprLevels_pos e
          have hlevels : exprLevels e ≤ exprLevels e - 1 + 1 := by omega
          refine expr e fun t hmem => ih t ?_
          have h₁ := (exprLevels_le e).mp hlevels t hmem
          have h₂ := (exprBlocks_le e).mp le_rfl t hmem
          simp only [Slot.levels, Slot.blocks] at ht
          omega
      | block b =>
          refine block b fun s hs t hmem => ih t ?_
          have h₁ := (stmtLevels_le s).mp ((stmtsLevels_le b).mp le_rfl s hs) t hmem
          have h₂ := (stmtBlocks_le s).mp ((stmtsBlocks_le b).mp le_rfl s hs) t hmem
          simp only [Slot.levels, Slot.blocks] at ht
          omega

end Devirt
