import Devirt.Proofs.Slots

set_option autoImplicit false

/-! # The state along a walk

All that a walk does to its state is counting a replacement, counting a slot that is given up, and
halting.  A preorder on states that goes along with halting and with settling a slot (`Along`) relates the
state before a walk to the state after it (`Along.walk`), whatever the pass answers.

A preorder that does not go along with halting may still relate the two, if the walk is over what nests within
the depth limit: there a walk with enough fuel is not halted before the first replacement
(`walk_within`). -/

namespace Devirt

namespace Walk

theorem Progress.halted_stop (w : Progress) (cause : Halt) : (w.stop cause).halted = true := by
  unfold stop
  split
  · assumption
  · rfl

theorem Progress.halt_stop {w : Progress} (h : w.halted = false) (cause : Halt) :
    (w.stop cause).halt = some cause := by
  simp [stop, h]

theorem Progress.halted_of_halt {w : Progress} {cause : Halt} (h : w.halt = some cause) :
    w.halted = true := by
  rw [halted, h, Option.isSome_some]

open Progress

/-- Settling a slot goes along with what its visits, counting a replacement and giving up a slot go along
with. -/
theorem state_settle {R : Progress → Progress → Prop}
    (htrans : ∀ {w w' w''}, R w w' → R w' w'' → R w w'') (hreplaced : ∀ w, R w w.replaced)
    (hgiveUp : ∀ w, R w w.giveUp) {α : Type} {visit : α → Progress → α × Progress} {hook : α → Option α}
    (hvisit : ∀ x w, R w (visit x w).2) (n : Nat) (x : α) (w : Progress) :
    R w (settle visit hook n x w).2 := by
  induction n generalizing x w with
  | zero => exact hgiveUp w
  | succ n ih =>
      have hround : R w (visit x w).2 := hvisit x w
      rcases settle_succ visit hook n x w with ⟨hlast, -⟩ | ⟨y, -, -, hagain⟩
      · rw [hlast]
        exact hround
      · rw [hagain]
        exact htrans hround (htrans (hreplaced _) (ih y _))

/-- A preorder on states that goes along with halting a walk and with settling a slot. -/
structure Along (R : Progress → Progress → Prop) : Prop where
  refl : ∀ w, R w w
  trans : ∀ {w w' w''}, R w w' → R w' w'' → R w w''
  stop : ∀ w cause, R w (w.stop cause)
  settle : ∀ {α : Type} {visit : α → Progress → α × Progress} {hook : α → Option α},
    (∀ x w, R w (visit x w).2) → ∀ x w, R w (Walk.settle visit hook maxRounds x w).2

namespace Along

variable {R : Progress → Progress → Prop} (hR : Along R)

include hR

theorem list {α : Type} {f : α → Progress → α × Progress} (hf : ∀ x w, R w (f x w).2)
    (xs : List α) (w : Progress) : R w (visitList f xs w).2 := by
  induction xs generalizing w with
  | nil => exact hR.refl w
  | cons x xs ih => exact hR.trans (hf x w) (ih (f x w).2)

section

variable {onExpr : Expr → Progress → Expr × Progress} {onBlock : Block → Progress → Block × Progress}
  (hE : ∀ e w, R w (onExpr e w).2) (hB : ∀ b w, R w (onBlock b w).2)

include hE hB

omit hR in
theorem slot (s : Slot) (w : Progress) : R w (visitSlot onExpr onBlock s w).2 := by
  cases s with
  | expr e => exact hE e w
  | block b => exact hB b w

theorem expr (e : Expr) (w : Progress) : R w (visitExpr onExpr onBlock e w).2 := by
  have h := hR.list (slot hE hB) (exprSlots e) w
  rwa [visitExpr_slots] at h

theorem stmt (s : Stmt) (w : Progress) : R w (visitStmt onExpr onBlock s w).2 := by
  have h := hR.list (slot hE hB) (stmtSlots s) w
  rwa [visitStmt_slots] at h

end

/-- Whatever the fuel and the depth, a walk goes along. -/
theorem walk (p : Pass) (fuel : Nat) :
    (∀ depth e w, R w (walkExpr p fuel depth e w).2) ∧
      (∀ depth s w, R w (walkStmt p fuel depth s w).2) ∧
      ∀ depth b w, R w (walkBlock p fuel depth b w).2 := by
  induction fuel with
  | zero =>
      refine ⟨fun _ _ w => ?_, fun _ _ w => ?_, fun _ _ w => ?_⟩
      · rw [walkExpr]
        exact hR.stop w .fuel
      · rw [walkStmt]
        exact hR.stop w .fuel
      · rw [walkBlock]
        exact hR.stop w .fuel
  | succ fuel ih =>
      obtain ⟨hE, hS, hB⟩ := ih
      refine ⟨fun depth e w => ?_, fun depth s w => ?_, fun depth b w => ?_⟩
      · rw [walkExpr]
        split
        · exact hR.refl w
        · split
          · exact hR.stop w .nesting
          · exact hR.settle (hR.expr (hE (depth + 1)) (hB (depth + 1))) e w
      · rw [walkStmt]
        exact hR.settle (hR.stmt (hE depth) (hB depth)) s w
      · rw [walkBlock]
        exact hR.settle (hR.list (hS depth)) b w

end Along

/-! ## Walks within the depth limit -/

section

variable {R : Progress → Progress → Prop} {p : Pass} {room : Nat}
  (hrefl : ∀ w, R w w) (htrans : ∀ {w w' w''}, R w w' → R w' w'' → R w w'')

include hrefl htrans

/-- What holds of the visits of the items, one after the other, holds of the visit of the list. -/
theorem list_within {α : Type} {P : α → Prop} {f : α → Progress → α × Progress}
    (hf : ∀ x w, P x → R w (f x w).2) {xs : List α} (hxs : ∀ x ∈ xs, P x) (w : Progress) :
    R w (visitList f xs w).2 :=
  (visitList_forall (I := R w) (Q := fun _ => True)
    (fun x w' hx hw' => ⟨htrans hw' (hf x w' hx), trivial⟩) hxs (hrefl w)).1

variable
  (hE : ∀ fuel n depth e w, 2 * n + maxDepth + 1 ≤ fuel + 1 + depth → exprBlocks e ≤ n →
    depth + exprLevels e + room ≤ maxDepth →
    R w (visitExpr (walkExpr p fuel (depth + 1)) (walkBlock p fuel (depth + 1)) e w).2 →
    R w (settle (visitExpr (walkExpr p fuel (depth + 1)) (walkBlock p fuel (depth + 1))) p.onExpr
      maxRounds e w).2)
  (hS : ∀ fuel depth s w, R w (visitStmt (walkExpr p fuel depth) (walkBlock p fuel depth) s w).2 →
    R w (settle (visitStmt (walkExpr p fuel depth) (walkBlock p fuel depth)) p.onStmt maxRounds s w).2)
  (hB : ∀ fuel depth b w, R w (visitList (walkStmt p fuel depth) b w).2 →
    R w (settle (visitList (walkStmt p fuel depth)) p.block maxRounds b w).2)

include hE hS hB

/-- A preorder that goes along with settling a slot as soon as it goes along with the first visit there
relates the states before and after a walk, if `room` levels are left below the depth limit, and there are two
units of fuel for each level of blocks and one for each level of expressions. -/
theorem walk_within (fuel : Nat) :
    (∀ n depth e w, 2 * n + maxDepth + 1 ≤ fuel + depth → exprBlocks e ≤ n →
        depth + exprLevels e + room ≤ maxDepth → R w (walkExpr p fuel depth e w).2) ∧
      (∀ n depth s w, 2 * n + maxDepth + 2 ≤ fuel + depth → stmtBlocks s ≤ n →
        depth + stmtLevels s + room ≤ maxDepth → R w (walkStmt p fuel depth s w).2) ∧
      ∀ n depth b w, 2 * n + maxDepth + 3 ≤ fuel + depth → stmtsBlocks b ≤ n →
        depth + stmtsLevels b + room ≤ maxDepth → R w (walkBlock p fuel depth b w).2 := by
  -- on the fuel, of which every level of blocks takes two units and every level of expressions one
  induction fuel with
  | zero => refine ⟨?_, ?_, ?_⟩ <;> intros <;> omega
  | succ fuel ih =>
      obtain ⟨ihE, ihS, ihB⟩ := ih
      have hslots : ∀ n depth ts w, 2 * n + maxDepth + 1 ≤ fuel + depth →
          (∀ t ∈ ts, t.blocks ≤ n ∧ depth + t.levels + room ≤ maxDepth) →
          R w (visitList (visitSlot (walkExpr p fuel depth) (walkBlock p fuel depth)) ts w).2 := by
        intro n depth ts w hfuel hts
        refine list_within hrefl htrans (fun t w' ht => ?_) hts w
        cases t with
        | expr e => exact ihE n depth e w' hfuel ht.1 ht.2
        | block b =>
            have hb : stmtsBlocks b + 1 ≤ n := ht.1
            exact ihB (n - 1) depth b w' (by omega) (by omega) ht.2
      refine ⟨fun n depth e w hfuel hblocks hlevels => ?_, fun n depth s w hfuel hblocks hlevels => ?_,
        fun n depth b w hfuel hblocks hlevels => ?_⟩
      · have hpos := exprLevels_pos e
        rw [walkExpr]
        split
        · exact hrefl w
        · rw [if_neg (by omega)]
          refine hE fuel n depth e w hfuel hblocks hlevels ?_
          have h := hslots n (depth + 1) (exprSlots e) w (by omega) fun t ht => ?_
          · rwa [visitExpr_slots] at h
          · have hlevel : exprLevels e ≤ exprLevels e - 1 + 1 := by omega
            have := (exprLevels_le e).mp hlevel t ht
            exact ⟨(exprBlocks_le e).mp hblocks t ht, by omega⟩
      · rw [walkStmt]
        refine hS fuel depth s w ?_
        have h := hslots n depth (stmtSlots s) w (by omega) fun t ht => ?_
        · rwa [visitStmt_slots] at h
        · have := (stmtLevels_le s).mp le_rfl t ht
          exact ⟨(stmtBlocks_le s).mp hblocks t ht, by omega⟩
      · rw [walkBlock]
        refine hB fuel depth b w (list_within hrefl htrans (P := fun s => s ∈ b) ?_ (fun _ hs => hs) w)
        intro s w' hs
        have := (stmtsLevels_le b).mp le_rfl s hs
        exact ihS n depth s w' (by omega) ((stmtsBlocks_le b).mp hblocks s hs) (by omega)

/-- The fuel that a walk is given is enough for it. -/
theorem state_within {b : Block} (hlevels : b.levels + room ≤ maxDepth) : R .start (p.walk b).2 := by
  have hdepth : 0 + stmtsLevels b + room ≤ maxDepth := by
    rw [Nat.zero_add]
    exact hlevels
  exact (walk_within hrefl htrans hE hS hB (enoughFuel b)).2.2 (stmtsBlocks b) 0 b .start
    (le_enoughFuel b 0) le_rfl hdepth

end

end Walk

end Devirt
