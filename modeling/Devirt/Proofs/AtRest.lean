import Devirt.Pass.Probe
import Devirt.Proofs.SlotSteps
import Devirt.Proofs.WalkStates

set_option autoImplicit false

/-! # A walk leaves a tree at rest

A tree is *at rest* for a pass if the pass declines every expression, statement and block of it
(`AtRest`).  A stretch of a walk is *smooth* if no slot is given up on it and the walk is not halted at
its end.  The parts of a smooth stretch are smooth, since slots that were given up stay counted and a
halted walk stays halted; so whatever was put into a slot has been visited, down to its leaves, after
the last replacement there, and a smooth walk leaves a tree at rest (`restsWithin_of_smooth`).

A walk over a tree at rest leaves it as it is (`walk_atRest`).  Hence the second walk of a pass replaces
nothing, however much fuel the first one took. -/

namespace Devirt

namespace Walk

/-- The pass declines the node in the slot and every node below it. -/
inductive AtRest (p : Pass) : Slot → Prop where
  | expr {e : Expr} : p.onExpr e = none → (∀ t ∈ exprSlots e, AtRest p t) → AtRest p (.expr e)
  | block {b : Block} : p.block b = none → (∀ s ∈ b, p.onStmt s = none) →
      (∀ s ∈ b, ∀ t ∈ stmtSlots s, AtRest p t) → AtRest p (.block b)

/-- Nothing can be replaced in a tree at rest. -/
theorem AtRest.not_step {p : Pass} {t t' : Slot} (h : AtRest p t) : ¬ SlotStep p t t' := by
  induction h generalizing t' with
  | expr hhook _ ih =>
      rintro ⟨hstep⟩
      rcases hstep.cases_slots with hstep | ⟨-, hstep⟩
      · rw [hhook] at hstep
        contradiction
      · obtain ⟨t, ht, t', hbelow⟩ := hstep.exists_mem
        exact ih t ht hbelow
  | block hhook hstmts _ ih =>
      rintro (_ | ⟨hstep⟩)
      cases hstep with
      | hook hstep =>
          rw [hhook] at hstep
          contradiction
      | items hstep =>
          obtain ⟨s, hs, s', hstmt⟩ := hstep.exists_mem
          rcases hstmt.cases_slots with hstmt | ⟨-, hstmt⟩
          · rw [hstmts s hs] at hstmt
            contradiction
          · obtain ⟨t, ht, t', hbelow⟩ := hstmt.exists_mem
            exact ih s hs t ht hbelow

namespace Progress

/-- No slot that was given up is forgotten, and a halted walk stays halted. -/
structure Counts (w w' : Progress) : Prop where
  capped : w.capped ≤ w'.capped
  halted : w.halted = true → w'.halted = true

/-- Between the two states no slot is given up and the walk is not halted. -/
structure Smooth (w w' : Progress) : Prop where
  capped : w'.capped = w.capped
  halted : w'.halted = false

variable {w w' w'' : Progress}

theorem Smooth.refl (hw : w.halted = false) : Smooth w w := ⟨rfl, hw⟩

theorem Smooth.trans (h : Smooth w w') (h' : Smooth w' w'') : Smooth w w'' :=
  ⟨h'.capped.trans h.capped, h'.halted⟩

theorem capped_stop (w : Progress) (cause : Halt) : (w.stop cause).capped = w.capped := by
  unfold stop
  split <;> rfl

theorem Counts.trans (h : Counts w w') (h' : Counts w' w'') : Counts w w'' :=
  ⟨h.capped.trans h'.capped, fun hw => h'.halted (h.halted hw)⟩

theorem counts_settle {α : Type} {visit : α → Progress → α × Progress} {hook : α → Option α}
    (hvisit : ∀ x w, Counts w (visit x w).2) (n : Nat) (x : α) (w : Progress) :
    Counts w (settle visit hook n x w).2 := by
  have hreplaced : ∀ w : Progress, Counts w w.replaced := fun _ => ⟨le_rfl, id⟩
  have hgiveUp : ∀ w : Progress, Counts w w.giveUp := fun _ => ⟨Nat.le_succ _, id⟩
  exact state_settle (R := Counts) Counts.trans hreplaced hgiveUp hvisit n x w

theorem along_counts : Along Counts where
  refl _ := ⟨le_rfl, id⟩
  trans := Counts.trans
  stop w cause := ⟨(capped_stop w cause).ge, fun _ => halted_stop w cause⟩
  settle hvisit := counts_settle hvisit maxRounds

theorem not_smooth_stop (cause : Halt) : ¬ Smooth w (w'.stop cause) := by
  intro h
  have := h.halted
  rw [halted_stop] at this
  contradiction

/-- The parts of a smooth stretch are smooth. -/
theorem Smooth.split (h : Smooth w w'') (h₁ : Counts w w') (h₂ : Counts w' w'') :
    Smooth w w' ∧ Smooth w' w'' := by
  have hge := h₁.capped
  have hle := h₂.capped
  have heq := h.capped
  have hhalted : w'.halted = false := by
    by_contra hc
    have := h₂.halted (by simpa using hc)
    rw [h.halted] at this
    contradiction
  exact ⟨⟨by omega, hhalted⟩, ⟨by omega, h.halted⟩⟩

end Progress

open Progress

/-! ## What smooth visits leave -/

section

variable {α : Type} {Q : α → Prop}

/-- What smooth visits bring about for an item, a smooth visit of a list brings about for all. -/
theorem forall_of_smooth {f : α → Progress → α × Progress} (hcounts : ∀ x w, Counts w (f x w).2)
    (hf : ∀ x w, Smooth w (f x w).2 → Q (f x w).1) {xs : List α} {w : Progress}
    (h : Smooth w (visitList f xs w).2) : ∀ y ∈ (visitList f xs w).1, Q y := by
  induction xs generalizing w with
  | nil => simp [visitList]
  | cons x xs ih =>
      obtain ⟨hx, hxs⟩ := h.split (hcounts x w) (along_counts.list hcounts xs (f x w).2)
      exact List.forall_mem_cons.mpr ⟨hf x w hx, ih hxs⟩

/-- A slot that is settled smoothly was visited last of all, and its hook declines. -/
theorem settle_of_smooth {visit : α → Progress → α × Progress} {hook : α → Option α}
    (hcounts : ∀ x w, Counts w (visit x w).2)
    (hvisit : ∀ x w, Smooth w (visit x w).2 → Q (visit x w).1) {n : Nat} {x : α} {w : Progress}
    (h : Smooth w (settle visit hook n x w).2) :
    hook (settle visit hook n x w).1 = none ∧ Q (settle visit hook n x w).1 := by
  -- on the rounds that are left; with none left the slot is given up
  induction n generalizing x w with
  | zero =>
      have hcapped : w.capped + 1 = w.capped := h.capped
      omega
  | succ n ih =>
      rcases settle_succ visit hook n x w with ⟨hlast, hend⟩ | ⟨y, -, -, hagain⟩
      · rw [hlast] at h ⊢
        have hdeclines : hook (visit x w).1 = none := by
          refine hend.resolve_left fun hhalted => ?_
          rw [h.halted] at hhalted
          contradiction
        exact ⟨hdeclines, hvisit x w h⟩
      · rw [hagain] at h ⊢
        have hrest : Counts (visit x w).2.replaced (settle visit hook n y (visit x w).2.replaced).2 :=
          counts_settle hcounts n y (visit x w).2.replaced
        have hafter := (h.split (hcounts x w) ⟨hrest.capped, hrest.halted⟩).2
        exact ih ⟨hafter.capped, h.halted⟩

end

/-- What is at rest and nests at most `n` levels of expressions. -/
structure RestsWithin (p : Pass) (n : Nat) (t : Slot) : Prop where
  atRest : AtRest p t
  levels : t.levels ≤ n

/-- Whatever the fuel and the depth, what a smooth walk leaves is at rest, and does not nest deeper
than the depth limit. -/
theorem restsWithin_of_smooth (p : Pass) (fuel : Nat) :
    (∀ depth e w, Smooth w (walkExpr p fuel depth e w).2 →
        RestsWithin p (maxDepth - depth) (.expr (walkExpr p fuel depth e w).1)) ∧
      (∀ depth s w, Smooth w (walkStmt p fuel depth s w).2 →
        p.onStmt (walkStmt p fuel depth s w).1 = none ∧
          ∀ t ∈ stmtSlots (walkStmt p fuel depth s w).1, RestsWithin p (maxDepth - depth) t) ∧
      ∀ depth b w, Smooth w (walkBlock p fuel depth b w).2 →
        RestsWithin p (maxDepth - depth) (.block (walkBlock p fuel depth b w).1) := by
  -- on the fuel; without any the walk is halted
  induction fuel with
  | zero =>
      refine ⟨fun _ _ _ h => ?_, fun _ _ _ h => ?_, fun _ _ _ h => ?_⟩
      · rw [walkExpr] at h
        exact absurd h (not_smooth_stop .fuel)
      · rw [walkStmt] at h
        exact absurd h (not_smooth_stop .fuel)
      · rw [walkBlock] at h
        exact absurd h (not_smooth_stop .fuel)
  | succ fuel ih =>
      obtain ⟨hEr, hSr, hBr⟩ := ih
      obtain ⟨hE, hS, hB⟩ := along_counts.walk p fuel
      -- the slots right below a node, walked over at a depth
      have hslots : ∀ depth xs w,
          Smooth w (visitList (visitSlot (walkExpr p fuel depth) (walkBlock p fuel depth)) xs w).2 →
          ∀ t ∈ (visitList (visitSlot (walkExpr p fuel depth) (walkBlock p fuel depth)) xs w).1,
            RestsWithin p (maxDepth - depth) t := by
        intro depth xs w h
        refine forall_of_smooth (Along.slot (hE depth) (hB depth)) (fun t w ht => ?_) h
        cases t with
        | expr e => exact hEr depth e w ht
        | block b => exact hBr depth b w ht
      refine ⟨fun depth e w h => ?_, fun depth s w h => ?_, fun depth b w h => ?_⟩
      · rw [walkExpr] at h ⊢
        split at h
        · rename_i hhalted
          rw [h.halted] at hhalted
          contradiction
        · rename_i hhalted
          split at h
          · exact absurd h (not_smooth_stop .nesting)
          · rename_i hdepth
            rw [if_neg hhalted, if_neg hdepth]
            obtain ⟨hhook, hbelow⟩ := settle_of_smooth
              (Q := fun e => ∀ t ∈ exprSlots e, RestsWithin p (maxDepth - (depth + 1)) t)
              (along_counts.expr (hE (depth + 1)) (hB (depth + 1)))
              (fun e w he => by
                have hvisit := hslots (depth + 1) (exprSlots e) w
                rw [visitExpr_slots] at hvisit
                exact hvisit he) h
            refine ⟨.expr hhook fun t ht => (hbelow t ht).atRest, ?_⟩
            have hlevel : maxDepth - depth = maxDepth - (depth + 1) + 1 := by omega
            rw [hlevel, Slot.levels, exprLevels_le]
            exact fun t ht => (hbelow t ht).levels
      · rw [walkStmt] at h ⊢
        refine settle_of_smooth (Q := fun s => ∀ t ∈ stmtSlots s, RestsWithin p (maxDepth - depth) t)
          (along_counts.stmt (hE depth) (hB depth)) (fun s w hs => ?_) h
        have hvisit := hslots depth (stmtSlots s) w
        rw [visitStmt_slots] at hvisit
        exact hvisit hs
      · rw [walkBlock] at h ⊢
        obtain ⟨hhook, hbelow⟩ := settle_of_smooth
          (Q := fun b => ∀ s ∈ b, p.onStmt s = none ∧ ∀ t ∈ stmtSlots s, RestsWithin p (maxDepth - depth) t)
          (along_counts.list (hS depth))
          (fun b w hb => forall_of_smooth (hS depth) (hSr depth) hb) h
        refine ⟨.block hhook (fun s hs => (hbelow s hs).1)
          fun s hs t ht => ((hbelow s hs).2 t ht).atRest, ?_⟩
        rw [Slot.levels, stmtsLevels_le]
        intro s hs
        rw [stmtLevels_le]
        exact fun t ht => ((hbelow s hs).2 t ht).levels

/-! ## Walks over trees at rest -/

theorem settle_of_still {α : Type} {visit : α → Progress → α × Progress} {hook : α → Option α} {x : α}
    {w : Progress} (hvisit : visit x w = (x, w)) (hhook : hook x = none) (n : Nat) :
    settle visit hook (n + 1) x w = (x, w) := by
  rcases settle_succ visit hook n x w with ⟨hlast, -⟩ | ⟨y, -, hy, -⟩
  · rw [hlast, hvisit]
  · rw [hvisit, hhook] at hy
    contradiction

/-- What enough fuel leaves as it is in expressions and in blocks, it leaves in slots. -/
theorem still_slot {p : Pass} {fuel : Nat}
    (hE : ∀ n depth e w, 2 * n + maxDepth + 1 ≤ fuel + depth → exprBlocks e ≤ n →
      depth + exprLevels e ≤ maxDepth → AtRest p (.expr e) → walkExpr p fuel depth e w = (e, w))
    (hB : ∀ n depth b w, 2 * n + maxDepth + 3 ≤ fuel + depth → stmtsBlocks b ≤ n →
      depth + stmtsLevels b ≤ maxDepth → AtRest p (.block b) → walkBlock p fuel depth b w = (b, w))
    {n depth : Nat} (w : Progress) {t : Slot} (hfuel : 2 * n + maxDepth + 1 ≤ fuel + depth)
    (hblocks : t.blocks ≤ n) (hlevels : depth + t.levels ≤ maxDepth) (ht : AtRest p t) :
    visitSlot (walkExpr p fuel depth) (walkBlock p fuel depth) t w = (t, w) := by
  cases t with
  | expr e => rw [visitSlot, hE n depth e w hfuel hblocks hlevels ht]
  | block b =>
      have hb : stmtsBlocks b + 1 ≤ n := hblocks
      rw [visitSlot, hB (n - 1) depth b w (by omega) (by omega) hlevels ht]

/-- With two units of fuel for each level of blocks and one for each level of expressions, a walk over
what is at rest and does not nest too deep changes nothing. -/
theorem walk_atRest (p : Pass) (fuel : Nat) :
    (∀ n depth e w, 2 * n + maxDepth + 1 ≤ fuel + depth → exprBlocks e ≤ n →
        depth + exprLevels e ≤ maxDepth → AtRest p (.expr e) → walkExpr p fuel depth e w = (e, w)) ∧
      (∀ n depth s w, 2 * n + maxDepth + 2 ≤ fuel + depth → stmtBlocks s ≤ n →
        depth + stmtLevels s ≤ maxDepth → p.onStmt s = none → (∀ t ∈ stmtSlots s, AtRest p t) →
        walkStmt p fuel depth s w = (s, w)) ∧
      ∀ n depth b w, 2 * n + maxDepth + 3 ≤ fuel + depth → stmtsBlocks b ≤ n →
        depth + stmtsLevels b ≤ maxDepth → AtRest p (.block b) →
        walkBlock p fuel depth b w = (b, w) := by
  induction fuel with
  | zero => refine ⟨?_, ?_, ?_⟩ <;> intros <;> omega
  | succ fuel ih =>
      obtain ⟨hE, hS, hB⟩ := ih
      refine ⟨fun n depth e w hfuel hblocks hlevels he => ?_,
        fun n depth s w hfuel hblocks hlevels hs hslots => ?_,
        fun n depth b w hfuel hblocks hlevels hb => ?_⟩
      · have hpos := exprLevels_pos e
        cases he with
        | expr hhook hbelow =>
            rw [walkExpr]
            split
            · rfl
            · rw [if_neg (by omega)]
              refine settle_of_still (visitExpr_still fun t ht => ?_) hhook _
              have hlevel : exprLevels e ≤ exprLevels e - 1 + 1 := by omega
              have := (exprLevels_le e).mp hlevel t ht
              exact still_slot hE hB w (by omega) ((exprBlocks_le e).mp hblocks t ht) (by omega)
                (hbelow t ht)
      · rw [walkStmt]
        refine settle_of_still (visitStmt_still fun t ht => ?_) hs _
        have := (stmtLevels_le s).mp le_rfl t ht
        exact still_slot hE hB w (by omega) ((stmtBlocks_le s).mp hblocks t ht) (by omega)
          (hslots t ht)
      · cases hb with
        | block hhook hstmts hbelow =>
            rw [walkBlock]
            refine settle_of_still (visitList_of_still fun s hs => ?_) hhook _
            have := (stmtsLevels_le b).mp le_rfl s hs
            exact hS n depth s w (by omega) ((stmtsBlocks_le b).mp hblocks s hs) (by omega)
              (hstmts s hs) (hbelow s hs)

end Walk

open Walk Walk.Progress

/-- A walk over a block at rest changes nothing. -/
theorem Pass.walk_of_atRest {p : Pass} {b : Block} (h : AtRest p (.block b))
    (hlevels : b.levels ≤ maxDepth) : p.walk b = (b, .start) := by
  have hdepth : 0 + stmtsLevels b ≤ maxDepth := (Nat.zero_add _).trans_le hlevels
  exact (walk_atRest p (enoughFuel b)).2.2 (stmtsBlocks b) 0 b .start (le_enoughFuel b 0) le_rfl hdepth h

/-- A walk that is not halted and gives up no slot leaves a block that a second walk does not change. -/
theorem Pass.walk_of_smooth {p : Pass} {fuel : Nat} {b : Block}
    (h : Smooth .start (walkBlock p fuel 0 b .start).2) :
    AtRest p (.block (walkBlock p fuel 0 b .start).1) ∧
      p.walk (walkBlock p fuel 0 b .start).1 = ((walkBlock p fuel 0 b .start).1, .start) := by
  have hrests := (restsWithin_of_smooth p fuel).2.2 0 b .start h
  exact ⟨hrests.atRest, Pass.walk_of_atRest hrests.atRest hrests.levels⟩

/-- Whatever the pass answers: if a walk, with whatever fuel, is not halted and no slot uses up its
replacements, then the pass declines every expression, statement and block of what is left, and a second
walk replaces nothing. -/
theorem atRest_of_completed (p : Pass) (fuel : Nat) (b : Block)
    (hhalt : (walkBlock p fuel 0 b .start).2.halt = none)
    (hcapped : (walkBlock p fuel 0 b .start).2.capped = 0) :
    AtRest p (.block (walkBlock p fuel 0 b .start).1) ∧
      p.walk (walkBlock p fuel 0 b .start).1 = ((walkBlock p fuel 0 b .start).1, .start) := by
  refine Pass.walk_of_smooth ⟨hcapped, ?_⟩
  rw [Progress.halted, hhalt]
  rfl

/-- Four of the probes in one pass. -/
def Probe.several : Pass where
  binary := dropAddZero.binary
  call := callShift.call
  declare := localToAssign.declare
  block := peelBlock.block

/-- `break; local x = f(a) + 0` is left as `x = f()`. -/
theorem atRest_of_completed_several :
    let b : Block :=
      [.brk, .declare 1 ["x"] [.binary .add (.call (.name "f") [.name "a"]) (.number (Double.ofInt 0))]]
    let left : Block := [.assign 1 [.name "x"] [.call (.name "f") []]]
    walkBlock Probe.several 8 0 b .start = (left, ⟨4, 0, none⟩) ∧
      AtRest Probe.several (.block left) ∧ Probe.several.walk left = (left, .start) := by
  intro b left
  have hwalk : walkBlock Probe.several 8 0 b .start = (left, ⟨4, 0, none⟩) := by rfl
  have hrest := atRest_of_completed Probe.several 8 b (by rw [hwalk]) (by rw [hwalk])
  rw [hwalk] at hrest
  exact ⟨hwalk, hrest⟩

end Devirt
