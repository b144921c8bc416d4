import Devirt.Pass.Probe
import Devirt.Proofs.Fuel
import Devirt.Proofs.Shells
import Devirt.Proofs.WalkStates

set_option autoImplicit false

/-! # Walks that end

On its way down a walk enters at most `maxDepth` expressions, which bounds how deep a pass can make it
descend through expressions, and `maxRounds` bounds how often it can do so at one slot.  Blocks are counted
by neither limit.  So a walk ends if the pass answers declarations and assignments with statements that
hold no blocks, and blocks with blocks that nest no deeper (`Pass.Shallow`), whatever it answers for
expressions: from some fuel on, no more of it is used (`Pass.Shallow.walk_ends`).  Without the condition a
walk can use up any fuel (`walk_wrapping`).

However a walk was halted, it replaces nothing from there on (`walk_of_halted`). -/

namespace Devirt

namespace Walk

/-- Below the slot, statements nest at most `n` blocks.  The bodies of functions do not count. -/
inductive Nests : Nat → Slot → Prop where
  | expr {n : Nat} {e : Expr} : Nests n (.expr e)
  | block {n : Nat} {b : Block} : (∀ s ∈ b, ∀ t ∈ stmtSlots s, Nests n t) → Nests (n + 1) (.block b)

theorem nests_of_zero {n : Nat} {t : Slot} (h : Nests 0 t) : Nests n t := by
  cases h
  exact .expr

theorem nests_of_blocks {n : Nat} {t : Slot} (h : t.blocks ≤ n) : Nests n t := by
  induction n generalizing t with
  | zero =>
      cases t with
      | expr e => exact .expr
      | block b => simp [Slot.blocks] at h
  | succ n ih =>
      cases t with
      | expr e => exact .expr
      | block b =>
          have hb : stmtsBlocks b ≤ n := Nat.le_of_succ_le_succ h
          refine .block fun s hs t ht => ih ?_
          exact (stmtBlocks_le s).mp ((stmtsBlocks_le b).mp hb s hs) t ht

theorem nests_exprs (es : List Expr) : ∀ t ∈ es.map Slot.expr, Nests 0 t := by
  intro t ht
  obtain ⟨e, -, rfl⟩ := List.mem_map.mp ht
  exact .expr

/-- Statements that are left out do not nest. -/
theorem nests_of_subset {n : Nat} {b b' : Block} (hsubset : b' ⊆ b) (h : Nests n (.block b)) :
    Nests n (.block b') := by
  cases h with
  | block hb => exact .block fun s hs => hb s (hsubset hs)

end Walk

open Walk

/-- The pass puts no blocks where there were none, and no deeper ones where there were some. -/
structure Pass.Shallow (p : Pass) : Prop where
  declare : ∀ id names values s, p.declare id names values = some s → ∀ t ∈ stmtSlots s, Nests 0 t
  assign : ∀ id targets values s, p.assign id targets values = some s → ∀ t ∈ stmtSlots s, Nests 0 t
  block : ∀ b b', p.block b = some b' → ∀ n, Nests n (.block b) → Nests n (.block b')

theorem Pass.Shallow.onStmt {p : Pass} (hp : p.Shallow) {s s' : Stmt} (h : p.onStmt s = some s')
    (n : Nat) : ∀ t ∈ stmtSlots s', Nests n t := by
  cases s with
  | declare id names values => exact fun t ht => nests_of_zero (hp.declare _ _ _ _ h t ht)
  | assign id targets values => exact fun t ht => nests_of_zero (hp.assign _ _ _ _ h t ht)
  | call f args =>
      obtain ⟨c, -, rfl⟩ := Option.map_eq_some_iff.mp h
      exact fun t ht => nests_of_zero (nests_exprs (c.1 :: c.2) t ht)
  | _ => contradiction

namespace Walk

/-! ## Steps of a walk that end -/

/-- From some fuel on, what is done with it comes to the same, has fuel left, and makes a `P`. -/
def Ends {α : Type} (P : α → Prop) (f : Nat → α × Progress) : Prop :=
  ∃ r : α × Progress, Fueled r.2 ∧ P r.1 ∧ ∃ n, ∀ m, n ≤ m → f m = r

section

variable {α : Type} {P Q : α → Prop}

theorem ends_const {x : α} {w : Progress} (hx : P x) (hw : Fueled w) : Ends P fun _ => (x, w) :=
  ⟨(x, w), hw, hx, 0, fun _ _ => rfl⟩

theorem Ends.succ {f : Nat → α × Progress} (h : Ends P fun m => f (m + 1)) : Ends P f := by
  obtain ⟨r, hr, hP, n, hn⟩ := h
  refine ⟨r, hr, hP, n + 1, fun m hm => ?_⟩
  obtain ⟨m, rfl⟩ : ∃ k, m = k + 1 := ⟨m - 1, by omega⟩
  exact hn m (Nat.le_of_succ_le_succ hm)

theorem ends_list {f : Nat → α → Progress → α × Progress} {xs : List α} {w : Progress}
    (hf : ∀ x ∈ xs, ∀ w, Fueled w → Ends P fun m => f m x w) (hw : Fueled w) :
    Ends (fun ys => ∀ y ∈ ys, P y) fun m => visitList (f m) xs w := by
  induction xs generalizing w with
  | nil => exact ends_const (by simp) hw
  | cons x xs ih =>
      obtain ⟨hx, hxs⟩ := List.forall_mem_cons.mp hf
      obtain ⟨⟨y, w'⟩, hw', hy, n, hn⟩ := hx w hw
      obtain ⟨⟨ys, w''⟩, hw'', hys, n', hn'⟩ := ih hxs hw'
      refine ⟨(y :: ys, w''), hw'', List.forall_mem_cons.mpr ⟨hy, hys⟩, max n n', fun m hm => ?_⟩
      have hx : f m x w = (y, w') := hn m (by omega)
      have hxs : visitList (f m) xs w' = (ys, w'') := hn' m (by omega)
      show visitList (f m) (x :: xs) w = _
      rw [visitList, hx]
      simp only
      rw [hxs]

/-- The rounds at a slot are bounded, so it is settled if every visit of it ends. -/
theorem ends_settle {visit : Nat → α → Progress → α × Progress} {hook : α → Option α}
    (hvisit : ∀ x w, P x → Fueled w → Ends P fun m => visit m x w)
    (hhook : ∀ x y, hook x = some y → P x → P y) (k : Nat) {x : α} {w : Progress} (hx : P x)
    (hw : Fueled w) : Ends P fun m => settle (visit m) hook k x w := by
  induction k generalizing x w with
  | zero => exact ends_const hx hw
  | succ k ih =>
      obtain ⟨⟨y, w'⟩, hw', hy, n, hn⟩ := hvisit x w hx hw
      have hround : ∀ m, n ≤ m → visit m x w = (y, w') := hn
      by_cases hhalted : w'.halted = true
      · refine ⟨(y, w'), hw', hy, n, fun m hm => ?_⟩
        show settle (visit m) hook (k + 1) x w = _
        rw [settle, hround m hm]
        simp only
        rw [if_pos hhalted]
      · cases hz : hook y with
        | none =>
            refine ⟨(y, w'), hw', hy, n, fun m hm => ?_⟩
            show settle (visit m) hook (k + 1) x w = _
            rw [settle, hround m hm]
            simp only
            rw [if_neg hhalted, hz]
        | some z =>
            obtain ⟨r, hr, hP, n', hn'⟩ := ih (hhook y z hz hy) (show Fueled w'.replaced from hw')
            refine ⟨r, hr, hP, max n n', fun m hm => ?_⟩
            show settle (visit m) hook (k + 1) x w = _
            rw [settle, hround m (by omega)]
            simp only
            rw [if_neg hhalted, hz]
            exact hn' m (by omega)

end

section

variable {onExpr : Nat → Expr → Progress → Expr × Progress}
  {onBlock : Nat → Block → Progress → Block × Progress} {P : Slot → Prop} {w : Progress}

/-- An expression is visited as soon as its slots are. -/
theorem ends_visitExpr {e : Expr} (h : Ends (fun ts => ∀ t ∈ ts, P t) fun m =>
      visitList (visitSlot (onExpr m) (onBlock m)) (exprSlots e) w) :
    Ends (fun e => ∀ t ∈ exprSlots e, P t) fun m => visitExpr (onExpr m) (onBlock m) e w := by
  obtain ⟨r, hr, hP, n, hn⟩ := h
  have hslots : visitList (visitSlot (onExpr n) (onBlock n)) (exprSlots e) w = r := hn n le_rfl
  rw [visitExpr_slots] at hslots
  subst hslots
  refine ⟨visitExpr (onExpr n) (onBlock n) e w, hr, hP, n, fun m hm => visitExpr_congr ?_⟩
  rw [visitExpr_slots (onExpr n) (onBlock n)]
  exact hn m hm

/-- A statement is visited as soon as its slots are. -/
theorem ends_visitStmt {s : Stmt} (h : Ends (fun ts => ∀ t ∈ ts, P t) fun m =>
      visitList (visitSlot (onExpr m) (onBlock m)) (stmtSlots s) w) :
    Ends (fun s => ∀ t ∈ stmtSlots s, P t) fun m => visitStmt (onExpr m) (onBlock m) s w := by
  obtain ⟨r, hr, hP, n, hn⟩ := h
  have hslots : visitList (visitSlot (onExpr n) (onBlock n)) (stmtSlots s) w = r := hn n le_rfl
  rw [visitStmt_slots] at hslots
  subst hslots
  refine ⟨visitStmt (onExpr n) (onBlock n) s w, hr, hP, n, fun m hm => visitStmt_congr ?_⟩
  rw [visitStmt_slots (onExpr n) (onBlock n)]
  exact hn m hm

/-- Slots are visited as soon as expressions and blocks are. -/
theorem ends_slots {n : Nat}
    (hE : ∀ e w, Fueled w → Ends (fun _ => True) fun m => onExpr m e w)
    (hB : ∀ b w, Nests n (.block b) → Fueled w →
      Ends (fun b => Nests n (.block b)) fun m => onBlock m b w)
    {ts : List Slot} (hts : ∀ t ∈ ts, Nests n t) (hw : Fueled w) :
    Ends (fun ts => ∀ t ∈ ts, Nests n t) fun m =>
      visitList (visitSlot (onExpr m) (onBlock m)) ts w := by
  refine ends_list (fun t ht w hw => ?_) hw
  cases t with
  | expr e =>
      obtain ⟨r, hr, -, k, hk⟩ := hE e w hw
      refine ⟨(.expr r.1, r.2), hr, .expr, k, fun m hm => ?_⟩
      have he : onExpr m e w = r := hk m hm
      show visitSlot (onExpr m) (onBlock m) (.expr e) w = _
      rw [visitSlot, he]
  | block b =>
      obtain ⟨r, hr, hP, k, hk⟩ := hB b w (hts _ ht) hw
      refine ⟨(.block r.1, r.2), hr, hP, k, fun m hm => ?_⟩
      have hb : onBlock m b w = r := hk m hm
      show visitSlot (onExpr m) (onBlock m) (.block b) w = _
      rw [visitSlot, hb]

end

/-! ## The walk -/

section

variable {p : Pass} (hp : p.Shallow) {depth : Nat}
  (hE : ∀ e w, Fueled w → Ends (fun _ => True) fun m => walkExpr p m depth e w)

include hp hE

/-- A block is walked as soon as the expressions at its depth are. -/
theorem ends_block (n : Nat) {b : Block} {w : Progress} (hb : Nests n (.block b)) (hw : Fueled w) :
    Ends (fun b => Nests n (.block b)) fun m => walkBlock p m depth b w := by
  -- on the blocks that nest in it
  induction n generalizing b w with
  | zero => cases hb
  | succ n ih =>
      have hS : ∀ s w, (∀ t ∈ stmtSlots s, Nests n t) → Fueled w →
          Ends (fun s => ∀ t ∈ stmtSlots s, Nests n t) fun m => walkStmt p m depth s w := by
        intro s w hs hw
        refine Ends.succ ?_
        simp only [walkStmt]
        refine ends_settle (fun s w hs hw => ends_visitStmt ?_) (fun _ _ h _ => hp.onStmt h n)
          maxRounds hs hw
        exact ends_slots hE (fun _ _ hb hw => ih hb hw) hs hw
      refine Ends.succ ?_
      simp only [walkBlock]
      refine ends_settle (fun b w hb hw => ?_) (fun b b' h hb => hp.block b b' h (n + 1) hb)
        maxRounds hb hw
      cases hb with
      | block hb =>
          obtain ⟨r, hr, hP, k, hk⟩ := ends_list (fun s hs w hw => hS s w (hb s hs) hw) hw
          exact ⟨r, hr, .block hP, k, hk⟩

end

theorem ends_expr {p : Pass} (hp : p.Shallow) (k : Nat) {depth : Nat} (hdepth : maxDepth ≤ depth + k)
    (e : Expr) {w : Progress} (hw : Fueled w) :
    Ends (fun _ => True) fun m => walkExpr p m depth e w := by
  -- on the levels that are left above the depth limit
  induction k generalizing depth e w with
  | zero =>
      refine Ends.succ ?_
      have hlimit : maxDepth ≤ depth := hdepth
      simp only [walkExpr, if_pos hlimit]
      split
      · exact ends_const trivial hw
      · exact ends_const trivial (fueled_nesting hw)
  | succ k ih =>
      have hE : ∀ e w, Fueled w → Ends (fun _ => True) fun m => walkExpr p m (depth + 1) e w :=
        fun e w hw => ih (by omega) e hw
      refine Ends.succ ?_
      simp only [walkExpr]
      split
      · exact ends_const trivial hw
      · split
        · exact ends_const trivial (fueled_nesting hw)
        · refine ends_settle (fun e w _ hw => ?_) (fun _ _ _ _ => trivial) maxRounds trivial hw
          -- the slots of an expression nest some number of blocks
          have hslots := ends_slots hE (n := exprBlocks e) (fun b w hb hw => ends_block hp hE _ hb hw)
            (fun t ht => nests_of_blocks ((exprBlocks_le e).mp le_rfl t ht)) hw
          obtain ⟨r, hr, -, n, hn⟩ := ends_visitExpr hslots
          exact ⟨r, hr, trivial, n, hn⟩

end Walk

/-- A walk of a shallow pass ends, whatever it answers for expressions: from some fuel on it leaves the
same block, in the same state, and does not run out. -/
theorem Pass.Shallow.walk_ends {p : Pass} (hp : p.Shallow) (b : Block) :
    ∃ r : Block × Progress, Fueled r.2 ∧ ∃ n, ∀ fuel, n ≤ fuel → walkBlock p fuel 0 b .start = r := by
  have hE : ∀ e w, Fueled w → Ends (fun _ => True) fun m => walkExpr p m 0 e w :=
    fun e w hw => ends_expr hp maxDepth (Nat.zero_add _).ge e hw
  have hb : Nests (stmtsBlocks b + 1) (.block b) := nests_of_blocks le_rfl
  obtain ⟨r, hr, -, n, hn⟩ := ends_block hp hE _ hb (show Fueled .start by simp [Fueled, Progress.start])
  exact ⟨r, hr, n, hn⟩

/-! ## Shallow passes -/

/-- A pass is shallow if it answers for expressions and calls only. -/
theorem Pass.shallow_of_declines {p : Pass}
    (hdeclare : ∀ id names values, p.declare id names values = none)
    (hassign : ∀ id targets values, p.assign id targets values = none) (hblock : ∀ b, p.block b = none) :
    p.Shallow := by
  constructor <;> simp [hdeclare, hassign, hblock]

theorem Temporaries.Context.shallow_pass {c : Temporaries.Context} : c.pass.Shallow where
  declare _ _ _ _ h := by cases h
  assign id targets values s h := by
    rcases assign_eq_some h with ⟨-, rfl⟩ | ⟨t, v, v', rfl, rfl, -, rfl⟩
    · exact nests_exprs values
    · exact nests_exprs [t, v']
  block b b' h n hb := by
    rw [block_eq_some h]
    exact nests_of_subset (fun _ hs => List.mem_of_mem_filter hs) hb

/-- The stages of the standard pipeline are shallow, with a mapping and without. -/
theorem Pipeline.shallow_standard (options : Options) (paths : Option Paths) :
    ∀ r ∈ (standard options paths).stages, ∀ b, (r.prepare b).Shallow := by
  have hfolding : Folding.pass.Shallow :=
    Pass.shallow_of_declines (fun _ _ _ => rfl) (fun _ _ _ => rfl) fun _ => rfl
  have hmapping : ∀ m : Paths, (Indirection.pass m).Shallow := fun _ =>
    Pass.shallow_of_declines (fun _ _ _ => rfl) (fun _ _ _ => rfl) fun _ => rfl
  intro r hr b
  simp only [standard, List.mem_cons, List.mem_append, List.mem_map, List.mem_nil_iff, or_false] at hr
  rcases hr with rfl | ⟨m, -, rfl⟩ | rfl
  · exact hfolding
  · exact hmapping m
  · exact Temporaries.Context.shallow_pass

namespace Probe

theorem shallow_localToAssign : localToAssign.Shallow where
  declare id names values s h := by
    cases h
    rw [stmtSlots, List.forall_mem_append]
    exact ⟨nests_exprs _, nests_exprs _⟩
  assign _ _ _ _ h := by cases h
  block _ _ h := by cases h

theorem shallow_assignToLocal : assignToLocal.Shallow where
  declare _ _ _ _ h := by cases h
  assign id targets values s h := by
    obtain ⟨names, -, rfl⟩ := Option.map_eq_some_iff.mp h
    exact nests_exprs _
  block _ _ h := by cases h

theorem shallow_peelBlock : peelBlock.Shallow where
  declare _ _ _ _ h := by cases h
  assign _ _ _ _ h := by cases h
  block b b' h n hb := by
    cases b with
    | nil => cases h
    | cons s rest =>
        cases s with
        | brk =>
            cases h
            exact nests_of_subset (List.subset_cons_self _ _) hb
        | _ => cases h

/-- All probes are shallow, also the one that never declines and the one that grows the tree. -/
theorem shallow_all : ∀ r ∈ Probe.all, ∀ b, (r.prepare b).Shallow := by
  simp only [Probe.all, List.forall_mem_cons]
  refine ⟨?dropAddZero, ?stubborn, ?burrow, fun _ => shallow_localToAssign,
    fun _ => shallow_assignToLocal, ?callShift, fun _ => shallow_peelBlock, ?memberToIndex, ?noop, by simp⟩
  all_goals exact fun _ => Pass.shallow_of_declines (fun _ _ _ => rfl) (fun _ _ _ => rfl) fun _ => rfl

end Probe

/-! ## Halted walks -/

namespace Walk

/-- A visit that leaves the walk halted is the last one of its slot. -/
theorem settle_of_halted {α : Type} {visit : α → Progress → α × Progress} {hook : α → Option α} {x : α}
    {w : Progress} (h : (visit x w).2.halted = true) (n : Nat) :
    settle visit hook (n + 1) x w = visit x w := by
  rcases settle_succ visit hook n x w with ⟨hlast, -⟩ | ⟨y, hgoing, -, -⟩
  · exact hlast
  · rw [h] at hgoing
    contradiction

/-- A halted walk replaces nothing. -/
theorem walk_of_halted (p : Pass) (fuel : Nat) {w : Progress} (hw : w.halted = true) :
    (∀ depth e, walkExpr p fuel depth e w = (e, w)) ∧
      (∀ depth s, walkStmt p fuel depth s w = (s, w)) ∧
      ∀ depth b, walkBlock p fuel depth b w = (b, w) := by
  have hstop : ∀ cause, w.stop cause = w := fun cause => if_pos hw
  have hsettle : ∀ {α : Type} {visit : α → Progress → α × Progress} {hook : α → Option α} {x : α},
      visit x w = (x, w) → settle visit hook maxRounds x w = (x, w) := by
    intro α visit hook x hvisit
    rw [maxRounds, settle_of_halted (by rw [hvisit]; exact hw), hvisit]
  induction fuel with
  | zero => simp [walkExpr, walkStmt, walkBlock, hstop]
  | succ fuel ih =>
      obtain ⟨hE, hS, hB⟩ := ih
      refine ⟨fun depth e => ?_, fun depth s => ?_, fun depth b => ?_⟩
      · rw [walkExpr, if_pos hw]
      · rw [walkStmt]
        refine hsettle (visitStmt_still fun t _ => ?_)
        cases t with
        | expr e => rw [visitSlot, hE]
        | block b => rw [visitSlot, hB]
      · rw [walkBlock]
        exact hsettle (visitList_of_still fun s _ => hS depth s)

end Walk

/-! ## A walk that does not end -/

/-- Puts every declaration into a block of its own. -/
def Probe.wrapping : Pass where
  declare id names values := some (.scope [.declare id names values])

/-- Whatever the fuel, a walk of that pass uses it up. -/
theorem walk_wrapping (fuel : Nat) (id : NodeId) (names : List String) :
    (walkBlock Probe.wrapping fuel 0 [.declare id names []] .start).2.halt = some .fuel := by
  suffices h : ∀ w : Progress, w.halted = false →
      (walkBlock Probe.wrapping fuel 0 [.declare id names []] w).2.halt = some .fuel from
    h .start rfl
  -- after two units of fuel the same declaration is met again, one block deeper
  induction fuel using Nat.twoStepInduction with
  | zero =>
      intro w hw
      rw [walkBlock]
      exact Progress.halt_stop hw .fuel
  | one =>
      intro w hw
      have hvisit : (visitList (walkStmt Probe.wrapping 0 0) [.declare id names []] w).2.halt
          = some .fuel := Progress.halt_stop hw .fuel
      rw [walkBlock, maxRounds, settle_of_halted (Progress.halted_of_halt hvisit)]
      exact hvisit
  | more fuel ih _ =>
      intro w hw
      have hbody := ih w.replaced hw
      have hscope : (visitStmt (walkExpr Probe.wrapping fuel 0) (walkBlock Probe.wrapping fuel 0)
          (.scope [.declare id names []]) w.replaced).2.halt = some .fuel := hbody
      have hstmt : (walkStmt Probe.wrapping (fuel + 1) 0 (.declare id names []) w).2.halt
          = some .fuel := by
        have hround : walkStmt Probe.wrapping (fuel + 1) 0 (.declare id names []) w
            = if w.halted then (.declare id names [], w) else
              settle (visitStmt (walkExpr Probe.wrapping fuel 0) (walkBlock Probe.wrapping fuel 0))
                Probe.wrapping.onStmt 255 (.scope [.declare id names []]) w.replaced := rfl
        rw [hround, hw, if_neg Bool.false_ne_true, settle_of_halted (Progress.halted_of_halt hscope)]
        exact hscope
      have hvisit : (visitList (walkStmt Probe.wrapping (fuel + 1) 0) [.declare id names []] w).2.halt
          = some .fuel := hstmt
      rw [walkBlock, maxRounds, settle_of_halted (Progress.halted_of_halt hvisit)]
      exact hvisit

end Devirt
