import Devirt.Proofs.Fixpoint
import Devirt.Proofs.Outlines

set_option autoImplicit false

/-! # What a quiet walk has asked

In a tree at rest the pass declines every statement that binds, and every block that such a statement
stands in (`settled_of_atRest`).  A quiet walk shows that the tree is at rest.  So of a run that has
converged it is known that no rule applies to a binding any more. -/

namespace Devirt

namespace Walk

open Progress

/-- The pass declines the statement and the block that it stands in. -/
def Settled (p : Pass) (s : Stmt) : Prop := p.onStmt s = none ∧ ∃ b : Block, s ∈ b ∧ p.block b = none

/-- The statements that bind in a slot. -/
def Slot.binders : Slot → List (Stmt × List Item)
  | .expr e => itemsBinders (exprItems e)
  | .block b => itemsBinders (stmtsItems b)

/-! ## Binding statements by slots -/

section

variable {q : Stmt × List Item}

theorem mem_binders_exprs {es : List Expr} (h : q ∈ itemsBinders (exprsItems es)) :
    ∃ t ∈ es.map Slot.expr, q ∈ t.binders := by
  induction es with
  | nil => contradiction
  | cons e es ih =>
      rw [exprsItems, itemsBinders_append, List.mem_append] at h
      rcases h with h | h
      · exact ⟨.expr e, List.mem_cons_self, h⟩
      · obtain ⟨t, ht, hq⟩ := ih h
        exact ⟨t, List.mem_cons_of_mem _ ht, hq⟩

theorem mem_binders_targets {es : List Expr} (h : q ∈ itemsBinders (targetsItems es)) :
    ∃ t ∈ es.map Slot.expr, q ∈ t.binders := by
  induction es with
  | nil => contradiction
  | cons e es ih =>
      rw [targetsItems, itemsBinders_append, List.mem_append] at h
      rcases h with h | h
      · refine ⟨.expr e, List.mem_cons_self, ?_⟩
        split at h
        · contradiction
        · exact h
      · obtain ⟨t, ht, hq⟩ := ih h
        exact ⟨t, List.mem_cons_of_mem _ ht, hq⟩

theorem mem_binders_entries {es : List Entry} (h : q ∈ itemsBinders (entriesItems es)) :
    ∃ t ∈ es.flatMap entrySlots, q ∈ t.binders := by
  induction es with
  | nil => contradiction
  | cons e es ih =>
      have hhead : (∃ t ∈ entrySlots e, q ∈ t.binders) ∨ q ∈ itemsBinders (entriesItems es) := by
        cases e with
        | positional v =>
            rw [entriesItems, itemsBinders_append, List.mem_append] at h
            exact h.imp_left fun h => ⟨.expr v, List.mem_cons_self, h⟩
        | keyed k v =>
            rw [entriesItems, itemsBinders_append, itemsBinders_append, List.mem_append,
              List.mem_append] at h
            refine h.imp_left fun h => h.elim (fun h => ⟨.expr k, List.mem_cons_self, h⟩) fun h => ?_
            exact ⟨.expr v, by simp [entrySlots], h⟩
      rw [List.flatMap_cons]
      rcases hhead with ⟨t, ht, hq⟩ | h
      · exact ⟨t, List.mem_append_left _ ht, hq⟩
      · obtain ⟨t, ht, hq⟩ := ih h
        exact ⟨t, List.mem_append_right _ ht, hq⟩

theorem mem_binders_clauses {cs : List Clause} (h : q ∈ itemsBinders (clausesItems cs)) :
    ∃ t ∈ cs.flatMap clauseSlots, q ∈ t.binders := by
  induction cs with
  | nil => contradiction
  | cons c cs ih =>
      cases c with
      | mk cond body =>
          rw [clausesItems, itemsBinders_append, itemsBinders_append, List.mem_append,
            List.mem_append] at h
          rw [List.flatMap_cons]
          rcases h with (h | h) | h
          · exact ⟨.expr cond, by simp [clauseSlots], h⟩
          · exact ⟨.block body, by simp [clauseSlots], h⟩
          · obtain ⟨t, ht, hq⟩ := ih h
            exact ⟨t, List.mem_append_right _ ht, hq⟩

theorem mem_binders_stmts {b : List Stmt} (h : q ∈ itemsBinders (stmtsItems b)) :
    ∃ s ∈ b, q ∈ itemsBinders (stmtItems s) := by
  induction b with
  | nil => contradiction
  | cons s b ih =>
      rw [stmtsItems, itemsBinders_append, List.mem_append] at h
      rcases h with h | h
      · exact ⟨s, List.mem_cons_self, h⟩
      · obtain ⟨s', hs', hq⟩ := ih h
        exact ⟨s', List.mem_cons_of_mem _ hs', hq⟩

/-- What binds in an expression binds in one of its slots. -/
theorem mem_binders_expr {e : Expr} (h : q ∈ itemsBinders (exprItems e)) :
    ∃ t ∈ exprSlots e, q ∈ t.binders := by
  cases e with
  | binary op l r | index l r =>
      rw [exprItems, itemsBinders_append, List.mem_append] at h
      rcases h with h | h
      · exact ⟨.expr l, by simp [exprSlots], h⟩
      · exact ⟨.expr r, by simp [exprSlots], h⟩
  | unary op e | member e f => exact ⟨.expr e, by simp [exprSlots], h⟩
  | call f args =>
      rw [exprItems, itemsBinders, Item.binders, List.nil_append, itemsBinders_append,
        List.mem_append] at h
      rcases h with h | h
      · exact ⟨.expr f, by simp [exprSlots], h⟩
      · obtain ⟨t, ht, hq⟩ := mem_binders_exprs h
        exact ⟨t, List.mem_cons_of_mem _ ht, hq⟩
  | table entries => exact mem_binders_entries h
  | function params variadic body => exact ⟨.block body, by simp [exprSlots], h⟩
  | _ => contradiction

/-- What binds in a statement is the statement itself, or binds in one of its slots. -/
theorem mem_binders_stmt {s : Stmt} (h : q ∈ itemsBinders (stmtItems s)) :
    q.1 = s ∨ ∃ t ∈ stmtSlots s, q ∈ t.binders := by
  cases s with
  | declare id names values =>
      rw [stmtItems, itemsBinders, itemsBinders, Item.binders, List.append_nil] at h
      rcases List.mem_cons.mp h with rfl | h
      · exact .inl rfl
      · exact .inr (mem_binders_exprs h)
  | assign id targets values =>
      rw [stmtItems, itemsBinders, itemsBinders, Item.binders, List.append_nil] at h
      rcases List.mem_cons.mp h with rfl | h
      · exact .inl rfl
      · rw [itemsBinders_append, List.mem_append] at h
        rw [stmtSlots]
        rcases h with h | h
        · obtain ⟨t, ht, hq⟩ := mem_binders_exprs h
          exact .inr ⟨t, List.mem_append_right _ ht, hq⟩
        · obtain ⟨t, ht, hq⟩ := mem_binders_targets h
          exact .inr ⟨t, List.mem_append_left _ ht, hq⟩
  | call f args => exact .inr (mem_binders_expr (e := .call f args) h)
  | scope body => exact .inr ⟨.block body, by simp [stmtSlots], h⟩
  | branch clauses orElse =>
      right
      cases orElse with
      | none =>
          rw [stmtSlots, Option.toList_none, List.map_nil, List.append_nil]
          exact mem_binders_clauses h
      | some body =>
          rw [stmtItems, itemsBinders_append, List.mem_append] at h
          rcases h with h | h
          · obtain ⟨t, ht, hq⟩ := mem_binders_clauses h
            exact ⟨t, List.mem_append_left _ ht, hq⟩
          · exact ⟨.block body, by simp [stmtSlots], h⟩
  | whileLoop cond body =>
      rw [stmtItems, itemsBinders_append, List.mem_append] at h
      rcases h with h | h
      · exact .inr ⟨.expr cond, by simp [stmtSlots], h⟩
      · exact .inr ⟨.block body, by simp [stmtSlots], h⟩
  | repeatLoop body cond =>
      rw [stmtItems, itemsBinders_append, List.mem_append] at h
      rcases h with h | h
      · exact .inr ⟨.block body, by simp [stmtSlots], h⟩
      · exact .inr ⟨.expr cond, by simp [stmtSlots], h⟩
  | numericFor var start limit step body =>
      right
      cases step with
      | none =>
          simp only [stmtItems, itemsBinders_append, List.mem_append] at h
          rcases h with (h | h) | h
          · exact ⟨.expr start, by simp [stmtSlots], h⟩
          · exact ⟨.expr limit, by simp [stmtSlots], h⟩
          · exact ⟨.block body, by simp [stmtSlots], h⟩
      | some step =>
          simp only [stmtItems, itemsBinders_append, List.mem_append] at h
          rcases h with ((h | h) | h) | h
          · exact ⟨.expr start, by simp [stmtSlots], h⟩
          · exact ⟨.expr limit, by simp [stmtSlots], h⟩
          · exact ⟨.expr step, by simp [stmtSlots], h⟩
          · exact ⟨.block body, by simp [stmtSlots], h⟩
  | genericFor names exprs body =>
      rw [stmtItems, itemsBinders_append, List.mem_append] at h
      right
      rcases h with h | h
      · obtain ⟨t, ht, hq⟩ := mem_binders_exprs h
        exact ⟨t, List.mem_append_left _ ht, hq⟩
      · exact ⟨.block body, by simp [stmtSlots], h⟩
  | ret values => exact .inr (mem_binders_exprs h)
  | brk => contradiction

end

/-! ## Quiet walks -/

/-- All that binds in a tree at rest is settled. -/
theorem settled_of_atRest {p : Pass} {t : Slot} (h : AtRest p t) : ∀ q ∈ t.binders, Settled p q.1 := by
  induction h with
  | expr _ _ ih =>
      intro q hq
      obtain ⟨t, ht, hqt⟩ := mem_binders_expr hq
      exact ih t ht q hqt
  | @block b hhook hstmts _ ih =>
      intro q hq
      obtain ⟨s, hs, hqs⟩ := mem_binders_stmts hq
      rcases mem_binders_stmt hqs with rfl | ⟨t, ht, hqt⟩
      · exact ⟨hstmts _ hs, b, hs, hhook⟩
      · exact ih s hs t ht q hqt

end Walk

/-- Where a walk is quiet, the pass declines all that binds. -/
theorem Pass.settled_of_quiet {p : Pass} {b : Block} (h : Walk.Progress.Quiet .start (p.walk b).2) :
    ∀ q ∈ itemsBinders b.items, Walk.Settled p q.1 :=
  Walk.settled_of_atRest (Pass.rests_of_quiet h).2.atRest

end Devirt
