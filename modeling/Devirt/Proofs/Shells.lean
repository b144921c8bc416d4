import Devirt.Proofs.Slots

set_option autoImplicit false

/-! # A node is its shell and its slots

The *shell* of a node is the node with its slots emptied: its kind, and what it holds beside slots.  A
visit leaves the shell as it is, and a node is put together again from its shell and its slots
(`Expr.refill_shell`, `Stmt.refill_shell`).  So what a visit makes of a node is known as soon as it is
known what it makes of the slots: two visits that agree in the slots agree in the node (`visitExpr_congr`,
`visitStmt_congr`), and one that changes no slot changes nothing (`visitExpr_still`, `visitStmt_still`). -/

namespace Devirt

open Walk

/-- An expression with its slots emptied. -/
def Expr.shell (e : Expr) : Expr :=
  (visitExpr (fun _ _ => (.nil, ())) (fun _ _ => ([], ())) e ()).1

/-- A statement with its slots emptied. -/
def Stmt.shell (s : Stmt) : Stmt :=
  (visitStmt (fun _ _ => (.nil, ())) (fun _ _ => ([], ())) s ()).1

/-- What is a selection but for its slots is a selection of the same field. -/
theorem Expr.eq_member_of_shell {e o : Expr} {f : String} (h : (Expr.member o f).shell = e.shell) :
    ∃ o', e = .member o' f := by
  cases e with
  | member o' f' =>
      simp only [shell, visitExpr, Expr.member.injEq, true_and] at h
      exact ⟨o', by rw [h]⟩
  | _ => simp [shell, visitExpr] at h

namespace Walk

/-! ## Visits leave the shell -/

section

variable {σ : Type} (onExpr : Expr → σ → Expr × σ) (onBlock : Block → σ → Block × σ)

theorem shell_visitList {α : Type} {f : α → σ → α × σ} {g : α → Unit → α × Unit}
    (h : ∀ x s, (g (f x s).1 ()).1 = (g x ()).1) (xs : List α) (s : σ) :
    (visitList g (visitList f xs s).1 ()).1 = (visitList g xs ()).1 := by
  induction xs generalizing s with
  | nil => rfl
  | cons x xs ih =>
      have htail := ih (f x s).2
      simp only [visitList, h]
      exact congrArg (_ :: ·) htail

theorem shell_visitExprs (es : List Expr) (s : σ) :
    (visitList (fun _ _ => (Expr.nil, ())) (visitList onExpr es s).1 ()).1
      = (visitList (fun _ _ => (Expr.nil, ())) es ()).1 :=
  shell_visitList (fun _ _ => rfl) es s

theorem shell_visitExpr (e : Expr) (s : σ) : (visitExpr onExpr onBlock e s).1.shell = e.shell := by
  cases e with
  | call f args => simp only [Expr.shell, visitExpr, shell_visitExprs]
  | table entries =>
      simp only [Expr.shell, visitExpr]
      rw [shell_visitList fun e _ => by cases e <;> rfl]
  | _ => rfl

theorem shell_visitStmt (t : Stmt) (s : σ) : (visitStmt onExpr onBlock t s).1.shell = t.shell := by
  cases t with
  | declare _ _ _ | call _ _ | genericFor _ _ _ | ret _ =>
      simp only [Stmt.shell, visitStmt, shell_visitExprs]
  | assign id targets values =>
      simp only [Stmt.shell, visitStmt, shell_visitExprs]
      exact congrArg (Stmt.assign id _) (shell_visitExprs onExpr values (visitList onExpr targets s).2)
  | branch clauses orElse =>
      simp only [Stmt.shell, visitStmt]
      rw [shell_visitList fun c _ => by cases c; rfl]
      cases orElse <;> rfl
  | numericFor var start limit step body => cases step <;> rfl
  | _ => rfl

end

/-! ## Shells filled again -/

/-- The next slot, for one that holds an expression. -/
def nextExpr : Expr → List Slot → Expr × List Slot
  | _, .expr e :: ts => (e, ts)
  | e, ts => (e, ts)

/-- The next slot, for one that holds a block. -/
def nextBlock : Block → List Slot → Block × List Slot
  | _, .block b :: ts => (b, ts)
  | b, ts => (b, ts)

theorem refill_list {α : Type} {f : α → List Slot → α × List Slot} {g : α → Unit → α × Unit}
    {slots : α → List Slot} (h : ∀ x ts, f (g x ()).1 (slots x ++ ts) = (x, ts)) (xs : List α)
    (ts : List Slot) : visitList f (visitList g xs ()).1 (xs.flatMap slots ++ ts) = (xs, ts) := by
  induction xs with
  | nil => rfl
  | cons x xs ih =>
      have hx := h x (xs.flatMap slots ++ ts)
      rw [List.flatMap_cons, List.append_assoc]
      simp only [visitList, hx]
      rw [ih]

theorem refill_exprs (es : List Expr) (ts : List Slot) :
    visitList nextExpr (visitList (fun _ _ => (Expr.nil, ())) es ()).1 (es.map .expr ++ ts)
      = (es, ts) := by
  rw [List.map_eq_flatMap]
  exact refill_list (fun _ _ => rfl) es ts

theorem refill_entries (es : List Entry) (ts : List Slot) :
    visitList (visitEntry nextExpr) (visitList (visitEntry fun _ _ => (.nil, ())) es ()).1
      (es.flatMap entrySlots ++ ts) = (es, ts) :=
  refill_list (fun e _ => by cases e <;> rfl) es ts

theorem refill_clauses (cs : List Clause) (ts : List Slot) :
    visitList (visitClause nextExpr nextBlock)
      (visitList (visitClause (fun _ _ => (.nil, ())) fun _ _ => ([], ())) cs ()).1
      (cs.flatMap clauseSlots ++ ts) = (cs, ts) :=
  refill_list (fun c _ => by cases c; rfl) cs ts

end Walk

/-- Puts the slots into an expression, from left to right. -/
def Expr.refill (e : Expr) (ts : List Slot) : Expr := (visitExpr nextExpr nextBlock e ts).1

def Stmt.refill (s : Stmt) (ts : List Slot) : Stmt := (visitStmt nextExpr nextBlock s ts).1

theorem Expr.refill_shell (e : Expr) : e.shell.refill (exprSlots e) = e := by
  cases e with
  | call f args =>
      have hargs := refill_exprs args []
      rw [List.append_nil] at hargs
      simp only [refill, shell, visitExpr, exprSlots, nextExpr, hargs]
  | table entries =>
      have hentries := refill_entries entries []
      rw [List.append_nil] at hentries
      simp only [refill, shell, visitExpr, exprSlots, hentries]
  | _ => rfl

theorem Stmt.refill_shell (s : Stmt) : s.shell.refill (stmtSlots s) = s := by
  cases s with
  | declare id names values =>
      have hvalues := refill_exprs values []
      rw [List.append_nil] at hvalues
      simp only [refill, shell, visitStmt, stmtSlots, hvalues]
  | assign id targets values =>
      have hvalues := refill_exprs values []
      rw [List.append_nil] at hvalues
      simp only [refill, shell, visitStmt, stmtSlots, refill_exprs, hvalues]
  | call f args =>
      have hargs := refill_exprs args []
      rw [List.append_nil] at hargs
      simp only [refill, shell, visitStmt, stmtSlots, nextExpr, hargs]
  | branch clauses orElse =>
      cases orElse <;> simp only [refill, shell, visitStmt, stmtSlots, refill_clauses] <;> rfl
  | numericFor var start limit step body => cases step <;> rfl
  | genericFor names exprs body =>
      simp only [refill, shell, visitStmt, stmtSlots, refill_exprs]
      rfl
  | ret values =>
      have hvalues := refill_exprs values []
      rw [List.append_nil] at hvalues
      simp only [refill, shell, visitStmt, stmtSlots, hvalues]
  | _ => rfl

theorem Expr.eq_of_slots {e e' : Expr} (hshell : e.shell = e'.shell)
    (hslots : exprSlots e = exprSlots e') : e = e' := by
  rw [← e.refill_shell, hshell, hslots, e'.refill_shell]

theorem Stmt.eq_of_slots {s s' : Stmt} (hshell : s.shell = s'.shell)
    (hslots : stmtSlots s = stmtSlots s') : s = s' := by
  rw [← s.refill_shell, hshell, hslots, s'.refill_shell]

/-! ## Visits that are known from the slots -/

namespace Walk

section

variable {σ : Type} {onExpr onExpr' : Expr → σ → Expr × σ} {onBlock onBlock' : Block → σ → Block × σ}

theorem visitExpr_congr {e : Expr} {s : σ}
    (h : visitList (visitSlot onExpr onBlock) (exprSlots e) s
      = visitList (visitSlot onExpr' onBlock') (exprSlots e) s) :
    visitExpr onExpr onBlock e s = visitExpr onExpr' onBlock' e s := by
  rw [visitExpr_slots, visitExpr_slots] at h
  obtain ⟨hslots, hstate⟩ := Prod.ext_iff.mp h
  refine Prod.ext (Expr.eq_of_slots ?_ hslots) hstate
  rw [shell_visitExpr, shell_visitExpr]

theorem visitStmt_congr {t : Stmt} {s : σ}
    (h : visitList (visitSlot onExpr onBlock) (stmtSlots t) s
      = visitList (visitSlot onExpr' onBlock') (stmtSlots t) s) :
    visitStmt onExpr onBlock t s = visitStmt onExpr' onBlock' t s := by
  rw [visitStmt_slots, visitStmt_slots] at h
  obtain ⟨hslots, hstate⟩ := Prod.ext_iff.mp h
  refine Prod.ext (Stmt.eq_of_slots ?_ hslots) hstate
  rw [shell_visitStmt, shell_visitStmt]

theorem visitList_of_still {α : Type} {f : α → σ → α × σ} {xs : List α} {s : σ}
    (h : ∀ x ∈ xs, f x s = (x, s)) : visitList f xs s = (xs, s) := by
  induction xs with
  | nil => rfl
  | cons x xs ih =>
      obtain ⟨hx, hxs⟩ := List.forall_mem_cons.mp h
      rw [visitList, hx]
      simp only
      rw [ih hxs]

theorem visitExpr_still {e : Expr} {s : σ}
    (h : ∀ t ∈ exprSlots e, visitSlot onExpr onBlock t s = (t, s)) :
    visitExpr onExpr onBlock e s = (e, s) := by
  have hvisit := visitExpr_slots onExpr onBlock e s
  rw [visitList_of_still h] at hvisit
  obtain ⟨hslots, hstate⟩ := Prod.ext_iff.mp hvisit
  exact Prod.ext (Expr.eq_of_slots (shell_visitExpr onExpr onBlock e s) hslots.symm) hstate.symm

theorem visitStmt_still {t : Stmt} {s : σ}
    (h : ∀ u ∈ stmtSlots t, visitSlot onExpr onBlock u s = (u, s)) :
    visitStmt onExpr onBlock t s = (t, s) := by
  have hvisit := visitStmt_slots onExpr onBlock t s
  rw [visitList_of_still h] at hvisit
  obtain ⟨hslots, hstate⟩ := Prod.ext_iff.mp hvisit
  exact Prod.ext (Stmt.eq_of_slots (shell_visitStmt onExpr onBlock t s) hslots.symm) hstate.symm

end

end Walk

end Devirt
