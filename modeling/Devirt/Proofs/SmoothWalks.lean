import Devirt.Proofs.AtRest
import Devirt.Proofs.Fuel

set_option autoImplicit false

/-! # Walks that nothing holds up

A pass that answers expressions only is smooth on a tree if it is smooth on every slot of an expression
whose own slots have just been settled (`smooth_of_levels`); statements and blocks are visited once.

A pass is *prompt* if its answer to an expression whose slots are at rest is at rest, and nests no deeper
than the expression (`Pass.Prompt`).  Then every slot takes one replacement at most, and a walk over a
block that nests no deeper than the limit is smooth (`Pass.Prompt.smooth`). -/

namespace Devirt

open Walk Walk.Progress

/-- The pass answers expressions only. -/
structure Pass.ExprOnly (p : Pass) : Prop where
  onStmt : ∀ s, p.onStmt s = none
  block : ∀ b, p.block b = none

namespace Walk

/-- A slot whose hook never answers is visited once. -/
theorem settle_of_declines {α : Type} {visit : α → Progress → α × Progress} {hook : α → Option α}
    (hhook : ∀ x, hook x = none) {n : Nat} (hn : 0 < n) (x : α) (w : Progress) :
    settle visit hook n x w = visit x w := by
  obtain ⟨n, rfl⟩ := Nat.exists_eq_add_one.mpr hn
  rcases settle_succ visit hook n x w with ⟨hlast, -⟩ | ⟨y, -, hy, -⟩
  · exact hlast
  · rw [hhook] at hy
    contradiction

/-- If expressions are settled smoothly as soon as their slots are, wherever there is room enough below
the depth limit, then a walk that leaves that room is smooth. -/
theorem smooth_of_levels {p : Pass} (hp : p.ExprOnly) {room : Nat}
    (hsettle : ∀ fuel n depth e w, 2 * n + maxDepth + 1 ≤ fuel + 1 + depth → exprBlocks e ≤ n →
      depth + exprLevels e + room ≤ maxDepth → w.halted = false →
      Smooth w (visitExpr (walkExpr p fuel (depth + 1)) (walkBlock p fuel (depth + 1)) e w).2 →
      Smooth w (settle (visitExpr (walkExpr p fuel (depth + 1)) (walkBlock p fuel (depth + 1))) p.onExpr
        maxRounds e w).2)
    {b : Block} (hlevels : b.levels + room ≤ maxDepth) : Smooth .start (p.walk b).2 := by
  -- a state at which the walk is halted may be followed by any
  refine state_within (R := fun w w' => w.halted = false → Smooth w w') (fun w => Smooth.refl)
    (fun h h' hw => (h hw).trans (h' (h hw).halted)) ?_ ?_ ?_ hlevels rfl
  · intro fuel n depth e w hfuel hblocks hdepth he hw
    exact hsettle fuel n depth e w hfuel hblocks hdepth hw (he hw)
  · intro fuel depth s w hs
    rw [settle_of_declines hp.onStmt (by decide)]
    exact hs
  · intro fuel depth b w hb
    rw [settle_of_declines hp.block (by decide)]
    exact hb

end Walk

/-! ## Prompt passes -/

/-- The pass answers expressions only; what it answers to an expression whose slots are at rest is at rest,
and nests no deeper, neither in expressions nor in blocks. -/
structure Pass.Prompt (p : Pass) : Prop extends p.ExprOnly where
  rests : ∀ e e', p.onExpr e = some e' → (∀ t ∈ exprSlots e, AtRest p t) → AtRest p (.expr e')
  levels : ∀ e e', p.onExpr e = some e' → exprLevels e' ≤ exprLevels e
  blocks : ∀ e e', p.onExpr e = some e' → exprBlocks e' ≤ exprBlocks e

namespace Pass.Prompt

variable {p : Pass} (hp : p.Prompt)

include hp

theorem flat : p.Flat where
  onExpr := hp.blocks
  onStmt s s' h := by
    rw [hp.onStmt] at h
    contradiction
  block b b' h := by
    rw [hp.block] at h
    contradiction

/-- What a visit leaves of an expression nests blocks no deeper than it did. -/
theorem blocks_visit {fuel n depth : Nat} {e : Expr} {w : Progress}
    (hfuel : 2 * n + maxDepth + 1 ≤ fuel + depth) (hdepth : depth ≤ maxDepth) (he : exprBlocks e ≤ n)
    (hw : w.halted = false) :
    exprBlocks (visitExpr (walkExpr p fuel depth) (walkBlock p fuel depth) e w).1 ≤ n := by
  obtain ⟨hE, -, hB⟩ := fueled_walk hp.flat fuel
  have hfueled : Fueled w := by
    intro hhalt
    rw [halted, hhalt] at hw
    contradiction
  refine (fueled_visitExpr (fun e w => hE n depth e w hfuel hdepth) (fun b w hb hw => ?_) e w he
    hfueled).2
  have h := hB (n - 1) depth b w (by omega) hdepth (by omega) hw
  exact ⟨h.1, by omega⟩

/-- An expression is settled by one replacement at most. -/
theorem smooth_settle {fuel n depth : Nat} {e : Expr} {w : Progress}
    (hfuel : 2 * n + maxDepth + 1 ≤ fuel + (depth + 1)) (hdepth : depth < maxDepth)
    (hblocks : exprBlocks e ≤ n) (hw : w.halted = false)
    (he : Smooth w (visitExpr (walkExpr p fuel (depth + 1)) (walkBlock p fuel (depth + 1)) e w).2) :
    Smooth w (settle (visitExpr (walkExpr p fuel (depth + 1)) (walkBlock p fuel (depth + 1))) p.onExpr
      maxRounds e w).2 := by
  have hbelow : ∀ t ∈ exprSlots (visitExpr (walkExpr p fuel (depth + 1))
      (walkBlock p fuel (depth + 1)) e w).1, RestsWithin p (maxDepth - (depth + 1)) t := by
    obtain ⟨hE, -, hB⟩ := along_counts.walk p fuel
    have hslots : Smooth w (visitList (visitSlot (walkExpr p fuel (depth + 1))
        (walkBlock p fuel (depth + 1))) (exprSlots e) w).2 := by
      rw [visitExpr_slots]
      exact he
    have h := forall_of_smooth (Q := RestsWithin p (maxDepth - (depth + 1)))
      (Along.slot (hE (depth + 1)) (hB (depth + 1))) (fun t w ht => ?_) hslots
    · rw [visitExpr_slots] at h
      exact h
    · cases t with
      | expr e => exact (restsWithin_of_smooth p fuel).1 (depth + 1) e w ht
      | block b => exact (restsWithin_of_smooth p fuel).2.2 (depth + 1) b w ht
  have hflat := hp.blocks_visit hfuel hdepth hblocks hw
  rcases settle_succ (visitExpr (walkExpr p fuel (depth + 1)) (walkBlock p fuel (depth + 1))) p.onExpr
    255 e w with ⟨hlast, -⟩ | ⟨z, -, hhook, hagain⟩
  · rw [maxRounds, hlast]
    exact he
  · rw [maxRounds, hagain]
    generalize visitExpr (walkExpr p fuel (depth + 1)) (walkBlock p fuel (depth + 1)) e w = r
      at he hbelow hflat hhook
    obtain ⟨y, w'⟩ := r
    -- the answer is at rest and no deeper, so the second visit finds nothing to do
    have hz := hp.rests y z hhook fun t ht => (hbelow t ht).atRest
    have hlevels : exprLevels z ≤ maxDepth - (depth + 1) + 1 :=
      (hp.levels y z hhook).trans ((exprLevels_le y).mpr fun t ht => (hbelow t ht).levels)
    have hzblocks : exprBlocks z ≤ n := (hp.blocks y z hhook).trans hflat
    cases hz with
    | expr hdeclines hrest =>
        have hstill : visitExpr (walkExpr p fuel (depth + 1)) (walkBlock p fuel (depth + 1)) z
            w'.replaced = (z, w'.replaced) := by
          refine visitExpr_still fun t ht => ?_
          have hlevel := (exprLevels_le z).mp hlevels t ht
          exact still_slot (walk_atRest p fuel).1 (walk_atRest p fuel).2.2 w'.replaced hfuel
            ((exprBlocks_le z).mp hzblocks t ht) (by omega) (hrest t ht)
        rw [settle_of_still hstill hdeclines 254]
        exact ⟨he.capped, he.halted⟩

/-- The walk of a prompt pass over a block that nests no deeper than the limit is not halted and gives up
no slot. -/
theorem smooth {b : Block} (hlevels : b.levels ≤ maxDepth) : Smooth .start (p.walk b).2 := by
  have hroom : b.levels + 0 ≤ maxDepth := hlevels
  refine smooth_of_levels hp.toExprOnly (fun fuel n depth e w hfuel hblocks hdepth hw he => ?_) hroom
  have hpos := exprLevels_pos e
  exact hp.smooth_settle (by omega) (by omega) hblocks hw he

end Pass.Prompt

end Devirt
