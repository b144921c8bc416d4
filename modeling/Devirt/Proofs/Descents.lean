import Devirt.Proofs.AtRest
import Devirt.Proofs.Endings
import Devirt.Proofs.SmoothWalks

set_option autoImplicit false

/-! # How far a walk descends

A walk that has run out of fuel was cut off in the middle of a descent, and the descent can be seen in the
tree it leaves: every unit of fuel was spent on entering an expression, a statement or a block, of expressions
the depth limit admits only so many, and between them there are only blocks with a statement in each
(`fuel_le_of_spent`).  On the other hand, fuel that is not used up makes no difference
(`walk_of_fueled`).  So the walk of a pass ends if and only if it does not nest blocks without bound
(`walk_ends_iff`).

The number of rounds at a slot bounds one visit of the slot only.  The slot is visited again in every round of
the slot above it, with its rounds counted anew, so that a pass that never declines replaces the innermost of
`n` nested nodes `maxRounds ^ n` times (`walk_stubborn`). -/

namespace Devirt

namespace Walk

open Progress

/-! ## Fuel that was spent -/

/-- The state in which a walk has run out of fuel is a halted one. -/
theorem halted_of_not_fueled {w : Progress} (h : ¬ Fueled w) : w.halted = true :=
  halted_of_halt (not_not.mp h)

theorem fueled_of_stop {w : Progress} {cause : Halt} (h : Fueled (w.stop cause)) : Fueled w := by
  by_contra hspent
  rw [stop, if_pos (halted_of_not_fueled hspent)] at h
  exact hspent h

theorem fueled_of_settle {α : Type} {visit : α → Progress → α × Progress} {hook : α → Option α}
    (hvisit : ∀ x w, Fueled (visit x w).2 → Fueled w) (n : Nat) (x : α) (w : Progress)
    (h : Fueled (settle visit hook n x w).2) : Fueled w :=
  state_settle (R := fun w w' => Fueled w' → Fueled w) (fun h h' hw => h (h' hw)) (fun _ => id)
    (fun _ => id) hvisit n x w h

/-- Once out of fuel, a walk stays so. -/
theorem along_fueled : Along fun w w' => Fueled w' → Fueled w where
  refl _ := id
  trans h h' := fun hw => h (h' hw)
  stop _ _ := fueled_of_stop
  settle hvisit := fueled_of_settle hvisit maxRounds

/-! ## Fuel that was not used up -/

section

variable {α : Type} {visit visit' : α → Progress → α × Progress}
  (hsame : ∀ x w, Fueled (visit x w).2 → visit' x w = visit x w)
  (hback : ∀ x w, Fueled (visit x w).2 → Fueled w)

include hsame hback

/-- Visits that agree as long as the first does not run out of fuel settle a slot alike. -/
theorem settle_of_fueled {hook : α → Option α} {n : Nat} {x : α} {w : Progress}
    (h : Fueled (settle visit hook n x w).2) :
    settle visit' hook n x w = settle visit hook n x w := by
  induction n generalizing x w with
  | zero => rfl
  | succ n ih =>
      have hvisit : Fueled (visit x w).2 := by
        rcases settle_succ visit hook n x w with ⟨hlast, -⟩ | ⟨y, -, -, hagain⟩
        · rw [hlast] at h
          exact h
        · rw [hagain] at h
          have hround : Fueled (visit x w).2.replaced := fueled_of_settle hback n y _ h
          exact hround
      rw [settle] at h
      rw [settle, settle, hsame x w hvisit]
      generalize visit x w = r at h
      obtain ⟨x', w'⟩ := r
      simp only at h ⊢
      split
      · rfl
      · rename_i hgoing
        rw [if_neg hgoing] at h
        cases hhook : hook x' with
        | none => rfl
        | some y =>
            rw [hhook] at h
            exact ih h

theorem visitList_of_fueled {xs : List α} {w : Progress} (h : Fueled (visitList visit xs w).2) :
    visitList visit' xs w = visitList visit xs w := by
  induction xs generalizing w with
  | nil => rfl
  | cons x xs ih =>
      have hrest : Fueled (visitList visit xs (visit x w).2).2 := h
      have hfirst : Fueled (visit x w).2 :=
        along_fueled.list hback xs (visit x w).2 hrest
      simp only [visitList, hsame x w hfirst, ih hrest]

end

/-- What more fuel does not change in expressions and in blocks, it does not change in slots. -/
theorem visitSlots_of_fueled {p : Pass} {fuel more depth : Nat}
    (hE : ∀ e w, Fueled (walkExpr p fuel depth e w).2 →
      walkExpr p more depth e w = walkExpr p fuel depth e w)
    (hB : ∀ b w, Fueled (walkBlock p fuel depth b w).2 →
      walkBlock p more depth b w = walkBlock p fuel depth b w)
    {ts : List Slot} {w : Progress}
    (h : Fueled (visitList (visitSlot (walkExpr p fuel depth) (walkBlock p fuel depth)) ts w).2) :
    visitList (visitSlot (walkExpr p more depth) (walkBlock p more depth)) ts w
      = visitList (visitSlot (walkExpr p fuel depth) (walkBlock p fuel depth)) ts w := by
  obtain ⟨hbackE, -, hbackB⟩ := along_fueled.walk p fuel
  refine visitList_of_fueled (fun t w ht => ?_)
    (Along.slot (R := fun w w' => Fueled w' → Fueled w) (hbackE depth) (hbackB depth)) h
  cases t with
  | expr e => rw [visitSlot, visitSlot, hE e w ht]
  | block b => rw [visitSlot, visitSlot, hB b w ht]

/-- If a walk does not run out of fuel, it does the same with more. -/
theorem walk_of_fueled (p : Pass) {fuel more : Nat} (hmore : fuel ≤ more) :
    (∀ depth e w, Fueled (walkExpr p fuel depth e w).2 →
        walkExpr p more depth e w = walkExpr p fuel depth e w) ∧
      (∀ depth s w, Fueled (walkStmt p fuel depth s w).2 →
        walkStmt p more depth s w = walkStmt p fuel depth s w) ∧
      ∀ depth b w, Fueled (walkBlock p fuel depth b w).2 →
        walkBlock p more depth b w = walkBlock p fuel depth b w := by
  induction fuel generalizing more with
  | zero =>
      -- without fuel, only a walk that was halted before does not run out of it
      have hhalted : ∀ w : Progress, Fueled (w.stop .fuel) → w.halted = true ∧ w.stop .fuel = w := by
        intro w hw
        cases hw' : w.halted with
        | true => exact ⟨rfl, if_pos hw'⟩
        | false => exact absurd (halt_stop hw' .fuel) hw
      refine ⟨fun depth e w h => ?_, fun depth s w h => ?_, fun depth b w h => ?_⟩
      · rw [walkExpr] at h ⊢
        obtain ⟨hw, hstop⟩ := hhalted w h
        rw [hstop, (walk_of_halted p more hw).1]
      · rw [walkStmt] at h ⊢
        obtain ⟨hw, hstop⟩ := hhalted w h
        rw [hstop, (walk_of_halted p more hw).2.1]
      · rw [walkBlock] at h ⊢
        obtain ⟨hw, hstop⟩ := hhalted w h
        rw [hstop, (walk_of_halted p more hw).2.2]
  | succ fuel ih =>
      obtain ⟨more, rfl⟩ : ∃ k, more = k + 1 := ⟨more - 1, by omega⟩
      obtain ⟨hE, hS, hB⟩ := ih (Nat.le_of_succ_le_succ hmore)
      obtain ⟨hbackE, hbackS, hbackB⟩ := along_fueled.walk p fuel
      refine ⟨fun depth e w h => ?_, fun depth s w h => ?_, fun depth b w h => ?_⟩
      · rw [walkExpr] at h
        rw [walkExpr, walkExpr]
        split
        · rfl
        · rename_i hgoing
          split
          · rfl
          · rename_i hdepth
            rw [if_neg hgoing, if_neg hdepth] at h
            refine settle_of_fueled (fun e w he => visitExpr_congr ?_)
              (along_fueled.expr (hbackE (depth + 1)) (hbackB (depth + 1))) h
            refine visitSlots_of_fueled (hE (depth + 1)) (hB (depth + 1)) ?_
            rw [visitExpr_slots]
            exact he
      · rw [walkStmt] at h
        rw [walkStmt, walkStmt]
        refine settle_of_fueled (fun s w hs => visitStmt_congr ?_)
          (along_fueled.stmt (hbackE depth) (hbackB depth)) h
        refine visitSlots_of_fueled (hE depth) (hB depth) ?_
        rw [visitStmt_slots]
        exact hs
      · rw [walkBlock] at h
        rw [walkBlock, walkBlock]
        exact settle_of_fueled (fun b w hb => visitList_of_fueled (hS depth) (hbackS depth) hb)
          (along_fueled.list (hbackS depth)) h

/-! ## What a walk without fuel has entered -/

section

variable {α : Type} {Q : α → Prop}

/-- What a visit brings about that runs out of fuel, is found in the list that was visited. -/
theorem exists_of_spent {f : α → Progress → α × Progress}
    (hf : ∀ x w, Fueled w → ¬ Fueled (f x w).2 → Q (f x w).1) {xs : List α} {w : Progress}
    (hw : Fueled w) (h : ¬ Fueled (visitList f xs w).2) : ∃ y ∈ (visitList f xs w).1, Q y := by
  induction xs generalizing w with
  | nil => exact absurd hw h
  | cons x xs ih =>
      by_cases hfirst : Fueled (f x w).2
      · obtain ⟨y, hy, hQ⟩ := ih hfirst h
        exact ⟨y, List.mem_cons_of_mem _ hy, hQ⟩
      · exact ⟨(f x w).1, List.mem_cons_self, hf x w hw hfirst⟩

/-- A slot that is not settled for want of fuel is left as the last visit left it. -/
theorem settle_of_spent {visit : α → Progress → α × Progress} {hook : α → Option α}
    (hvisit : ∀ x w, Fueled w → ¬ Fueled (visit x w).2 → Q (visit x w).1) {n : Nat} {x : α}
    {w : Progress} (hw : Fueled w) (h : ¬ Fueled (settle visit hook n x w).2) :
    Q (settle visit hook n x w).1 := by
  induction n generalizing x w with
  | zero => exact absurd hw h
  | succ n ih =>
      rcases settle_succ visit hook n x w with ⟨hlast, -⟩ | ⟨y, hgoing, -, hagain⟩
      · rw [hlast] at h ⊢
        exact hvisit x w hw h
      · rw [hagain] at h ⊢
        have hround : Fueled (visit x w).2 := by
          by_contra hspent
          rw [halted_of_not_fueled hspent] at hgoing
          contradiction
        exact ih (w := (visit x w).2.replaced) hround h

end

/-- If a walk runs out of fuel, the blocks in what it leaves nest so deep that the fuel could be used up. -/
theorem fuel_le_of_spent (p : Pass) (fuel : Nat) :
    (∀ depth e w, depth ≤ maxDepth → Fueled w → ¬ Fueled (walkExpr p fuel depth e w).2 →
        fuel + depth ≤ 2 * exprBlocks (walkExpr p fuel depth e w).1 + maxDepth) ∧
      (∀ depth s w, depth ≤ maxDepth → Fueled w → ¬ Fueled (walkStmt p fuel depth s w).2 →
        fuel + depth ≤ 2 * stmtBlocks (walkStmt p fuel depth s w).1 + maxDepth + 1) ∧
      ∀ depth b w, depth ≤ maxDepth → Fueled w → ¬ Fueled (walkBlock p fuel depth b w).2 →
        fuel + depth ≤ 2 * stmtsBlocks (walkBlock p fuel depth b w).1 + maxDepth + 2 := by
  induction fuel with
  | zero => refine ⟨?_, ?_, ?_⟩ <;> intros <;> omega
  | succ fuel ih =>
      obtain ⟨hE, hS, hB⟩ := ih
      -- one of the slots below the node is entered last
      have hslots : ∀ depth ts w, depth ≤ maxDepth → Fueled w →
          ¬ Fueled (visitList (visitSlot (walkExpr p fuel depth) (walkBlock p fuel depth)) ts w).2 →
          ∃ t ∈ (visitList (visitSlot (walkExpr p fuel depth) (walkBlock p fuel depth)) ts w).1,
            fuel + depth ≤ 2 * t.blocks + maxDepth := by
        intro depth ts w hdepth hw h
        refine exists_of_spent (fun t w hw ht => ?_) hw h
        cases t with
        | expr e => exact hE depth e w hdepth hw ht
        | block b =>
            have hb := hB depth b w hdepth hw ht
            show fuel + depth ≤ 2 * (stmtsBlocks (walkBlock p fuel depth b w).1 + 1) + maxDepth
            omega
      refine ⟨fun depth e w hdepth hw h => ?_, fun depth s w hdepth hw h => ?_,
        fun depth b w hdepth hw h => ?_⟩
      · rw [walkExpr] at h ⊢
        split at h
        · exact absurd hw h
        · rename_i hgoing
          split at h
          · exact absurd (fueled_nesting hw) h
          · rename_i hlimit
            rw [if_neg hgoing, if_neg hlimit]
            refine settle_of_spent
              (Q := fun e => fuel + 1 + depth ≤ 2 * exprBlocks e + maxDepth) (fun e w hw he => ?_) hw h
            have hvisit := hslots (depth + 1) (exprSlots e) w (by omega) hw
            rw [visitExpr_slots] at hvisit
            obtain ⟨t, ht, hle⟩ := hvisit he
            have hblocks := (exprBlocks_le _).mp le_rfl t ht
            show fuel + 1 + depth ≤ 2 * exprBlocks
              (visitExpr (walkExpr p fuel (depth + 1)) (walkBlock p fuel (depth + 1)) e w).1 + maxDepth
            omega
      · rw [walkStmt] at h ⊢
        refine settle_of_spent
          (Q := fun s => fuel + 1 + depth ≤ 2 * stmtBlocks s + maxDepth + 1) (fun s w hw hs => ?_) hw h
        have hvisit := hslots depth (stmtSlots s) w hdepth hw
        rw [visitStmt_slots] at hvisit
        obtain ⟨t, ht, hle⟩ := hvisit hs
        have hblocks := (stmtBlocks_le _).mp le_rfl t ht
        show fuel + 1 + depth ≤ 2 * stmtBlocks
          (visitStmt (walkExpr p fuel depth) (walkBlock p fuel depth) s w).1 + maxDepth + 1
        omega
      · rw [walkBlock] at h ⊢
        refine settle_of_spent
          (Q := fun b => fuel + 1 + depth ≤ 2 * stmtsBlocks b + maxDepth + 2) (fun b w hw hb => ?_) hw h
        obtain ⟨s, hs, hle⟩ := exists_of_spent
          (Q := fun s => fuel + depth ≤ 2 * stmtBlocks s + maxDepth + 1)
          (fun s w hw hs => hS depth s w hdepth hw hs) hw hb
        have hblocks := (stmtsBlocks_le _).mp le_rfl s hs
        show fuel + 1 + depth ≤ 2 * stmtsBlocks (visitList (walkStmt p fuel depth) b w).1 + maxDepth + 2
        omega

end Walk

open Walk

/-! ## Rounds within rounds -/

/-- A name under `n` operations, each of which is the operand of the next. -/
def Expr.tower (op : UnaryOp) (x : String) : Nat → Expr
  | 0 => .name x
  | n + 1 => .unary op (tower op x n)

namespace Walk

/-- The state after `r` more replacements and `c` more slots that were given up. -/
def Progress.advance (w : Progress) (r c : Nat) : Progress :=
  { w with replacements := w.replacements + r, capped := w.capped + c }

/-- A slot whose hook answers what stands there is visited in every round, and given up in the end. -/
theorem settle_of_unchanged {α : Type} {visit : α → Progress → α × Progress} {hook : α → Option α} {x : α}
    {r c : Nat} (hvisit : ∀ w, w.halted = false → visit x w = (x, w.advance r c))
    (hhook : hook x = some x) (n : Nat) {w : Progress} (hw : w.halted = false) :
    settle visit hook n x w = (x, w.advance (n * (r + 1)) (n * c + 1)) := by
  induction n generalizing w with
  | zero => simp [settle, Progress.giveUp, Progress.advance]
  | succ n ih =>
      have hgoing : (w.advance r c).halted = false := hw
      have hreplaced : (w.advance r c).replaced.halted = false := hw
      have hsum : (w.advance r c).replaced.advance (n * (r + 1)) (n * c + 1)
          = w.advance ((n + 1) * (r + 1)) ((n + 1) * c + 1) := by
        simp only [Progress.advance, Progress.replaced, Progress.mk.injEq, and_true]
        constructor <;> ring
      rw [settle, hvisit w hw]
      simp only
      rw [hgoing, if_neg Bool.false_ne_true, hhook]
      simp only
      rw [ih hreplaced, hsum]

/-- All the rounds at the lower `n` slots are made again in each round at the slot above them. -/
theorem sum_rounds (n : Nat) :
    ∑ i ∈ Finset.range (n + 1), maxRounds ^ (i + 1)
      = maxRounds * (∑ i ∈ Finset.range n, maxRounds ^ (i + 1) + 1) := by
  rw [Finset.sum_range_succ', mul_add, Finset.mul_sum]
  simp only [pow_succ', pow_zero]

theorem sum_capped (n : Nat) :
    ∑ i ∈ Finset.range (n + 1), maxRounds ^ i = maxRounds * ∑ i ∈ Finset.range n, maxRounds ^ i + 1 := by
  rw [Finset.sum_range_succ', Finset.mul_sum]
  simp only [pow_succ', pow_zero]

theorem walkExpr_stubborn (op : UnaryOp) (x : String) {n fuel depth : Nat} (hfuel : n < fuel)
    (hdepth : depth + n < maxDepth) {w : Progress} (hw : w.halted = false) :
    walkExpr Probe.stubborn fuel depth (.tower op x n) w
      = (.tower op x n, w.advance (∑ i ∈ Finset.range n, maxRounds ^ (i + 1))
          (∑ i ∈ Finset.range n, maxRounds ^ i)) := by
  -- on the operations below the slot, which is visited in each of its rounds
  induction n generalizing fuel depth w with
  | zero =>
      obtain ⟨fuel, rfl⟩ := Nat.exists_eq_add_one.mpr hfuel
      have hname : Probe.stubborn.onExpr (.name x) = none := rfl
      rw [walkExpr, hw, if_neg Bool.false_ne_true, if_neg (by omega)]
      exact settle_of_still rfl hname 255
  | succ n ih =>
      obtain ⟨fuel, rfl⟩ := Nat.exists_eq_add_one.mpr (Nat.zero_lt_of_lt hfuel)
      have hvisit : ∀ w : Progress, w.halted = false →
          visitExpr (walkExpr Probe.stubborn fuel (depth + 1)) (walkBlock Probe.stubborn fuel (depth + 1))
              (.tower op x (n + 1)) w
            = (.tower op x (n + 1), w.advance (∑ i ∈ Finset.range n, maxRounds ^ (i + 1))
                (∑ i ∈ Finset.range n, maxRounds ^ i)) := by
        intro w hw
        have hbelow : walkExpr Probe.stubborn fuel (depth + 1) (.tower op x n) w = _ :=
          ih (by omega) (by omega) hw
        simp only [Expr.tower, visitExpr, hbelow]
      have hhook : Probe.stubborn.onExpr (.tower op x (n + 1)) = some (.tower op x (n + 1)) := rfl
      rw [walkExpr, hw, if_neg Bool.false_ne_true, if_neg (by omega), sum_rounds, sum_capped]
      exact settle_of_unchanged hvisit hhook maxRounds hw

end Walk

/-- Over `n` nested operations, the walk of `stubborn` makes `256 + 256² + … + 256ⁿ` replacements, although each
of the operations is given up after `256` rounds: it is visited anew, and given up once more, in every round of
the operation above it. -/
theorem walk_stubborn (op : UnaryOp) (x : String) {n : Nat} (hn : n < maxDepth) :
    Probe.stubborn.walk [.ret [.tower op x n]]
      = ([.ret [.tower op x n]], Progress.start.advance (∑ i ∈ Finset.range n, maxRounds ^ (i + 1))
          (∑ i ∈ Finset.range n, maxRounds ^ i)) := by
  have hrounds : 0 < maxRounds := by decide
  have hblock : ∀ b, Probe.stubborn.block b = none := fun _ => rfl
  have hstmt : ∀ s, Probe.stubborn.onStmt s = none := by
    intro s
    cases s <;> rfl
  obtain ⟨fuel, hfuel, henough⟩ := exists_enoughFuel [.ret [.tower op x n]]
  have hexpr : walkExpr Probe.stubborn fuel 0 (.tower op x n) .start = _ :=
    walkExpr_stubborn op x (by omega) (by omega) rfl
  rw [Pass.walk, henough, walkBlock, settle_of_declines hblock hrounds]
  simp only [visitList, walkStmt, settle_of_declines hstmt hrounds, visitStmt, hexpr]

/-! ## Walks of any pass -/

/-- The walk of the pass over the block ends: with some fuel it does not run out of it. -/
def Pass.Ends (p : Pass) (b : Block) : Prop := ∃ fuel, Fueled (walkBlock p fuel 0 b .start).2

/-- How deep blocks nest in what a walk leaves that is cut off when its fuel has run out. -/
def Pass.blocksLeft (p : Pass) (b : Block) (fuel : Nat) : Nat := stmtsBlocks (walkBlock p fuel 0 b .start).1

namespace Walk

theorem fueled_start : Fueled .start := by simp [Fueled, Progress.start]

/-- A walk ends if and only if there is a bound on how deep it nests blocks, whatever its fuel. -/
theorem ends_iff_bounded (p : Pass) (b : Block) :
    p.Ends b ↔ ∃ n, ∀ fuel, p.blocksLeft b fuel ≤ n := by
  constructor
  · rintro ⟨enough, hfueled⟩
    -- more fuel than enough changes nothing, and there are only so many ways to have less
    refine ⟨(Finset.range (enough + 1)).sup (p.blocksLeft b), fun fuel => ?_⟩
    have hsame : walkBlock p fuel 0 b .start = walkBlock p (min fuel enough) 0 b .start := by
      rcases Nat.le_total fuel enough with hless | hmore
      · rw [Nat.min_eq_left hless]
      · rw [Nat.min_eq_right hmore]
        exact (walk_of_fueled p hmore).2.2 0 b .start hfueled
    have hmem : min fuel enough ∈ Finset.range (enough + 1) := by
      rw [Finset.mem_range]
      omega
    rw [Pass.blocksLeft, hsame]
    exact Finset.le_sup (f := p.blocksLeft b) hmem
  · rintro ⟨n, hn⟩
    refine ⟨2 * n + maxDepth + 3, ?_⟩
    by_contra hspent
    have hle := (fuel_le_of_spent p _).2.2 0 b .start (Nat.zero_le _) fueled_start hspent
    have hbound := hn (2 * n + maxDepth + 3)
    rw [Pass.blocksLeft] at hbound
    omega

/-- A walk that ends while the pass still has answers was cut off. -/
theorem cut_off_of_fueled (p : Pass) (b : Block) {fuel : Nat}
    (h : Fueled (walkBlock p fuel 0 b .start).2) :
    AtRest p (.block (walkBlock p fuel 0 b .start).1) ∨
      0 < (walkBlock p fuel 0 b .start).2.capped ∨
        (walkBlock p fuel 0 b .start).2.halt = some .nesting := by
  cases hhalt : (walkBlock p fuel 0 b .start).2.halt with
  | none =>
      by_cases hcapped : (walkBlock p fuel 0 b .start).2.capped = 0
      · refine .inl (Pass.walk_of_smooth ⟨hcapped, ?_⟩).1
        rw [Progress.halted, hhalt]
        rfl
      · exact .inr (.inl (Nat.pos_of_ne_zero hcapped))
  | some cause =>
      cases cause with
      | nesting => exact .inr (.inr rfl)
      | fuel => exact absurd hhalt h

end Walk

/-- Whatever the pass answers, its walk over a block ends if and only if it does not nest blocks without bound,
which a shallow pass does not.  Where the walk ends, more fuel makes no difference, and unless the pass declines
all that is left, it was cut off: some slot was given up, or expressions nest too deep. -/
theorem walk_ends_iff (p : Pass) (b : Block) :
    (p.Ends b ↔ ∃ n, ∀ fuel, p.blocksLeft b fuel ≤ n) ∧
      (p.Shallow → p.Ends b) ∧
        ∀ fuel, Fueled (walkBlock p fuel 0 b .start).2 →
          (∀ more, fuel ≤ more → walkBlock p more 0 b .start = walkBlock p fuel 0 b .start) ∧
            (AtRest p (.block (walkBlock p fuel 0 b .start).1) ∨
              0 < (walkBlock p fuel 0 b .start).2.capped ∨
                (walkBlock p fuel 0 b .start).2.halt = some .nesting) := by
  refine ⟨ends_iff_bounded p b, fun hp => ?_, fun fuel hfueled => ⟨fun more hmore => ?_, ?_⟩⟩
  · obtain ⟨r, hr, n, hn⟩ := hp.walk_ends b
    refine ⟨n, ?_⟩
    rw [hn n le_rfl]
    exact hr
  · exact (walk_of_fueled p hmore).2.2 0 b .start hfueled
  · exact cut_off_of_fueled p b hfueled

/-- A declaration that is answered by a block around it is never done with, and two nested negations that are
answered by themselves are replaced 65792 times. -/
theorem not_ends_wrapping :
    ¬ Probe.wrapping.Ends [.declare 1 ["x"] []] ∧
      (Probe.stubborn.walk [.ret [.unary .not (.unary .not (.name "x"))]]).2.replacements = 65792 := by
  refine ⟨fun ⟨fuel, hfueled⟩ => hfueled (walk_wrapping fuel 1 ["x"]), ?_⟩
  have hwalk := walk_stubborn .not "x" (show 2 < maxDepth by decide)
  rw [Expr.tower, Expr.tower, Expr.tower] at hwalk
  rw [hwalk]
  decide

end Devirt
