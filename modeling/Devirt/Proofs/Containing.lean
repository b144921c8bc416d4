import Devirt.Proofs.AtRest

set_option autoImplicit false

/-! # What a tree contains

A tree *contains* its slots, the slots below those, and so on down to the leaves, function bodies included
(`Slot.Contains`).  What is at rest is at rest in everything that it contains.

A property of statements is kept *everywhere* in a tree (`Slot.EveryStmt`) by a pass whose replacements
keep it in the one statement, and whose answers put in no statement that was not there before
(`Pass.Maintains`). -/

namespace Devirt

namespace Walk

/-- The second slot is the first, or lies somewhere below it. -/
inductive Slot.Contains : Slot → Slot → Prop where
  | refl (t : Slot) : Contains t t
  | expr {e : Expr} {t u : Slot} : t ∈ exprSlots e → Contains t u → Contains (.expr e) u
  | block {b : Block} {s : Stmt} {t u : Slot} : s ∈ b → t ∈ stmtSlots s → Contains t u →
      Contains (.block b) u

theorem AtRest.of_contains {p : Pass} {t u : Slot} (h : AtRest p t) (hu : t.Contains u) :
    AtRest p u := by
  induction hu with
  | refl t => exact h
  | expr ht _ ih =>
      cases h with
      | expr _ hbelow => exact ih (hbelow _ ht)
  | block hs ht _ ih =>
      cases h with
      | block _ _ hbelow => exact ih (hbelow _ hs _ ht)

/-- The pass declines every expression that lies in what is at rest. -/
theorem AtRest.onExpr_eq_none {p : Pass} {t : Slot} {e : Expr} (h : AtRest p t)
    (he : t.Contains (.expr e)) : p.onExpr e = none := by
  cases h.of_contains he with
  | expr hhook _ => exact hhook

/-- No more blocks lie inside each other in a part of a slot than in the slot. -/
theorem Slot.Contains.blocks_le {t u : Slot} (h : t.Contains u) : u.blocks ≤ t.blocks := by
  induction h with
  | refl t => exact le_rfl
  | expr ht _ ih => exact ih.trans ((exprBlocks_le _).mp le_rfl _ ht)
  | @block b s t u hs ht _ ih =>
      have hstmt : stmtBlocks s ≤ stmtsBlocks b := (stmtsBlocks_le b).mp le_rfl s hs
      have hslot : t.blocks ≤ stmtBlocks s := (stmtBlocks_le s).mp le_rfl t ht
      rw [Slot.blocks]
      omega

/-- Right below an expression there is a block only if the expression is a function. -/
theorem eq_function_of_mem {e : Expr} {b : Block} (h : .block b ∈ exprSlots e) :
    ∃ params variadic, e = .function params variadic b := by
  cases e with
  | function params variadic body =>
      simp only [exprSlots, List.mem_singleton, Slot.block.injEq] at h
      exact ⟨params, variadic, by rw [h]⟩
  | table entries =>
      obtain ⟨entry, -, hentry⟩ := List.mem_flatMap.mp h
      cases entry <;> simp [entrySlots] at hentry
  | _ => simp [exprSlots] at h

/-- Without a function there is no block in an expression, and the other way round. -/
theorem exprBlocks_eq_zero_iff (e : Expr) : exprBlocks e = 0 ↔
    ∀ params variadic body, ¬ (Slot.expr e).Contains (.expr (.function params variadic body)) := by
  constructor
  · intro hzero params variadic body hcontains
    have hle : stmtsBlocks body + 1 ≤ exprBlocks e := hcontains.blocks_le
    omega
  · suffices h : ∀ t : Slot, ∀ e, t = .expr e →
        (∀ params variadic body,
          ¬ (Slot.expr e).Contains (.expr (.function params variadic body))) → exprBlocks e = 0 from
      h (.expr e) e rfl
    intro t
    induction t using Slot.induction with
    | block b ih =>
        intro e he
        contradiction
    | expr e ih =>
        rintro _ ⟨⟩ hnone
        rw [← Nat.le_zero, exprBlocks_le]
        intro t ht
        cases t with
        | block b =>
            obtain ⟨params, variadic, rfl⟩ := eq_function_of_mem ht
            exact absurd (.refl _) (hnone params variadic b)
        | expr e' =>
            have hbelow := ih (.expr e') ht e' rfl fun params variadic body hcontains =>
              hnone params variadic body (.expr ht hcontains)
            exact le_of_eq hbelow

/-! ## A property of every statement -/

/-- The statements of all blocks that lie in the slot have the property. -/
def Slot.EveryStmt (P : Stmt → Prop) (t : Slot) : Prop :=
  ∀ b, t.Contains (.block b) → ∀ s ∈ b, P s

section

variable {P : Stmt → Prop}

theorem Slot.EveryStmt.imp {Q : Stmt → Prop} (hPQ : ∀ s, P s → Q s) {t : Slot} (h : t.EveryStmt P) :
    t.EveryStmt Q :=
  fun b hb s hs => hPQ s (h b hb s hs)

theorem everyStmt_expr {e : Expr} :
    (Slot.expr e).EveryStmt P ↔ ∀ t ∈ exprSlots e, t.EveryStmt P := by
  constructor
  · intro h t ht b hb
    exact h b (.expr ht hb)
  · intro h b hb
    cases hb with
    | expr ht hb => exact h _ ht b hb

theorem everyStmt_block {b : Block} :
    (Slot.block b).EveryStmt P ↔ ∀ s ∈ b, P s ∧ ∀ t ∈ stmtSlots s, t.EveryStmt P := by
  constructor
  · intro h s hs
    exact ⟨h b (.refl _) s hs, fun t ht c hc => h c (.block hs ht hc)⟩
  · intro h c hc
    cases hc with
    | refl _ => exact fun s hs => (h s hs).1
    | block hs ht hc => exact (h _ hs).2 _ ht c hc

/-- Where there is no block, there is no statement. -/
theorem everyStmt_of_blocks (t : Slot) (h : t.blocks = 0) : t.EveryStmt P := by
  induction t using Slot.induction with
  | expr e ih =>
      have hbelow := (exprBlocks_le e).mp (le_of_eq h)
      exact everyStmt_expr.mpr fun t ht => ih t ht (Nat.le_zero.mp (hbelow t ht))
  | block b ih => contradiction

end

end Walk

open Walk

/-! ## Passes that keep a property of every statement -/

/-- The replacements of the pass keep the property of a statement, and put in no other statement than
those that were there. -/
structure Pass.Maintains (p : Pass) (P : Stmt → Prop) : Prop where
  onExpr : ∀ e e', p.onExpr e = some e' → (Slot.expr e).EveryStmt P → (Slot.expr e').EveryStmt P
  step : ∀ s s', StmtStep p s s' → P s → P s'
  onStmt : ∀ s s', p.onStmt s = some s' → (∀ t ∈ stmtSlots s, t.EveryStmt P) →
    ∀ t ∈ stmtSlots s', t.EveryStmt P
  block : ∀ b b', p.block b = some b' → b' ⊆ b

namespace Pass.Maintains

variable {p : Pass} {P : Stmt → Prop}

theorem slotStep (hp : p.Maintains P) (t : Slot) :
    ∀ t', SlotStep p t t' → t.EveryStmt P → t'.EveryStmt P := by
  -- on the slot: either the hook of the node answers, or the step is made in one of the slots below
  induction t using Slot.induction with
  | expr e ih =>
      rintro t' ⟨hstep⟩ he
      rcases hstep.cases_slots with hhook | ⟨-, hslots⟩
      · exact hp.onExpr _ _ hhook he
      · rw [everyStmt_expr] at he ⊢
        exact hslots.forall_mem ih he
  | block b ih =>
      rintro t' (_ | ⟨hstep⟩) hb
      rw [everyStmt_block] at hb ⊢
      cases hstep with
      | hook hhook => exact fun s hs => hb s (hp.block _ _ hhook hs)
      | items hitems =>
          refine hitems.forall_mem (fun s hs s' hstmt ⟨hPs, hslots⟩ => ?_) hb
          refine ⟨hp.step s s' hstmt hPs, ?_⟩
          rcases hstmt.cases_slots with hhook | ⟨-, hbelow⟩
          · exact hp.onStmt _ _ hhook hslots
          · exact hbelow.forall_mem (ih s hs) hslots

/-- A walk keeps the property of every statement in the tree. -/
theorem walk (hp : p.Maintains P) {b : Block} (h : (Slot.block b).EveryStmt P) :
    (Slot.block (p.walk b).1).EveryStmt P :=
  p.walk_preserves (P := fun b => (Slot.block b).EveryStmt P)
    (fun _ _ hstep => hp.slotStep _ _ (.block hstep)) h

end Pass.Maintains

end Devirt
