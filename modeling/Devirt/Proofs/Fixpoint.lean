import Devirt.Proofs.AtRest

set_option autoImplicit false

/-! # What it means that a run has converged

A walk is *quiet* if it replaces nothing and is not halted.  It leaves the block as it was, and since a
slot is given up only after `maxRounds` replacements (`Steady`) it gives up none.  So the block is at rest,
and does not nest deeper than the depth limit (`Pass.rests_of_quiet`).

A run converges by a round of quiet walks.  Its result is therefore a block on which every walk is
quiet, and on which the next run stops in its first round (`simplify_of_converged`). -/

namespace Devirt

namespace Walk

namespace Progress

/-- Between the two states nothing is replaced and the walk is not halted. -/
structure Quiet (w w' : Progress) : Prop where
  replacements : w'.replacements = w.replacements
  halted : w'.halted = false

/-- Between the two states at least as many nodes are replaced as slots are given up. -/
def Steady (w w' : Progress) : Prop := w'.capped + w.replacements ≤ w.capped + w'.replacements

variable {w w' w'' : Progress}

theorem Steady.trans (h : Steady w w') (h' : Steady w' w'') : Steady w w'' := by
  unfold Steady at *
  omega

/-- A slot that is given up after some rounds has been replaced in each of them. -/
theorem steady_settle {α : Type} {visit : α → Progress → α × Progress} {hook : α → Option α}
    (hvisit : ∀ x w, Steady w (visit x w).2) {n : Nat} (hn : 0 < n) (x : α) (w : Progress) :
    Steady w (settle visit hook n x w).2 := by
  induction n generalizing x w with
  | zero => contradiction
  | succ n ih =>
      have hv := hvisit x w
      rcases settle_succ visit hook n x w with ⟨hlast, -⟩ | ⟨y, -, -, hagain⟩
      · rw [hlast]
        exact hv
      · rw [hagain]
        -- in the last round the slot is given up right after the replacement
        rcases Nat.eq_zero_or_pos n with rfl | hn
        · have hgivenUp : Steady (visit x w).2 (visit x w).2.replaced.giveUp := by
            simp only [Steady, replaced, giveUp]
            omega
          exact hv.trans hgivenUp
        · have hreplaced : Steady (visit x w).2 (visit x w).2.replaced := by
            simp only [Steady, replaced]
            omega
          exact hv.trans (hreplaced.trans (ih hn y (visit x w).2.replaced))

theorem along_steady : Along Steady where
  refl _ := le_rfl
  trans := Steady.trans
  stop w cause := by rw [Steady, capped_stop, replacements_stop]
  settle hvisit := steady_settle hvisit (by decide)

end Progress

end Walk

open Walk Walk.Progress

theorem Rewrites.eq_of_zero {α : Type} {R : α → α → Prop} {x y : α} (h : Rewrites R 0 x y) :
    y = x := by
  cases h
  rfl

/-- A quiet walk leaves the block as it was, at rest and not too deep. -/
theorem Pass.rests_of_quiet {p : Pass} {b : Block} (h : Quiet .start (p.walk b).2) :
    (p.walk b).1 = b ∧ RestsWithin p maxDepth (.block b) := by
  have hsame : (p.walk b).1 = b := by
    have hsteps := p.walk_rewrites b
    rw [show (p.walk b).2.replacements = 0 from h.replacements] at hsteps
    exact hsteps.eq_of_zero
  have hcapped : (p.walk b).2.capped = 0 := by
    have hsteady := (along_steady.walk p (enoughFuel b)).2.2 0 b .start
    have hle : (p.walk b).2.capped + 0 ≤ 0 + (p.walk b).2.replacements := hsteady
    rw [show (p.walk b).2.replacements = 0 from h.replacements] at hle
    omega
  have hrests : RestsWithin p maxDepth (.block (p.walk b).1) :=
    (restsWithin_of_smooth p (enoughFuel b)).2.2 0 b .start ⟨hcapped, h.halted⟩
  rw [hsame] at hrests
  exact ⟨hsame, hrests⟩

theorem Pass.walk_of_quiet {p : Pass} {b : Block} (h : Quiet .start (p.walk b).2) :
    (p.walk b).1 = b ∧ b.levels ≤ maxDepth :=
  ⟨(Pass.rests_of_quiet h).1, (Pass.rests_of_quiet h).2.levels⟩

/-! ## Rounds -/

namespace Pipeline

/-- All walks over the block are quiet. -/
def AllQuiet (rs : List Stage) (b : Block) : Prop :=
  ∀ r ∈ rs, Quiet .start ((r.prepare b).walk b).2

theorem le_round (rs : List Stage) (b : Block) (n : Nat) : n ≤ (round rs b n).2.1 := by
  induction rs generalizing b n with
  | nil => exact le_rfl
  | cons r rs ih =>
      rw [round]
      simp only
      split
      · exact Nat.le_add_right ..
      · exact (Nat.le_add_right ..).trans (ih ..)

/-- A round that replaces nothing and is not halted walks over one and the same block. -/
theorem allQuiet_of_round {rs : List Stage} {b b' : Block} {n : Nat}
    (h : round rs b n = (b', n, false)) : b' = b ∧ AllQuiet rs b := by
  induction rs generalizing b n with
  | nil =>
      cases h
      exact ⟨rfl, by simp [AllQuiet]⟩
  | cons r rs ih =>
      rw [round] at h
      simp only at h
      split at h
      · simp at h
      · rename_i hhalted
        have hle := le_round rs ((r.prepare b).walk b).1 (n + ((r.prepare b).walk b).2.replacements)
        rw [h] at hle
        have hzero : ((r.prepare b).walk b).2.replacements = 0 := by
          simp only at hle
          omega
        have hquiet : Quiet .start ((r.prepare b).walk b).2 := ⟨hzero, by simpa using hhalted⟩
        rw [(Pass.walk_of_quiet hquiet).1, hzero] at h
        obtain ⟨rfl, hrest⟩ := ih h
        exact ⟨rfl, List.forall_mem_cons.mpr ⟨hquiet, hrest⟩⟩

theorem round_of_allQuiet {rs : List Stage} {b : Block} (h : AllQuiet rs b) (n : Nat) :
    round rs b n = (b, n, false) := by
  induction rs with
  | nil => rfl
  | cons r rs ih =>
      obtain ⟨hr, hrs⟩ := List.forall_mem_cons.mp h
      rw [round]
      simp only
      rw [if_neg (by simp [hr.halted]), (Pass.walk_of_quiet hr).1, hr.replacements]
      exact ih hrs

theorem rounds_succ {rs : List Stage} {b b' : Block} {n : Nat} {halted : Bool}
    (h : round rs b 0 = (b', n, halted)) (k : Nat) (report : RunReport) :
    rounds rs (k + 1) b report =
      if halted || n == 0 then
        (b', ⟨report.iterations + 1, report.replacements + n, !halted && n == 0⟩)
      else
        rounds rs k b' ⟨report.iterations + 1, report.replacements + n, !halted && n == 0⟩ := by
  rw [rounds, h]

/-- Rounds that converge stop at a block whose walks are all quiet, whatever number of rounds is
left then. -/
theorem rounds_of_converged {rs : List Stage} {k : Nat} {b : Block} {report : RunReport}
    (hstart : report.converged = false) (h : (rounds rs k b report).2.converged = true) :
    0 < k ∧ AllQuiet rs (rounds rs k b report).1 ∧
      ∀ k', k ≤ k' → rounds rs k' b report = rounds rs k b report := by
  induction k generalizing b report with
  | zero =>
      rw [rounds, hstart] at h
      contradiction
  | succ k ih =>
      refine ⟨Nat.succ_pos k, ?_⟩
      -- the last round, or one after which the others follow
      rcases hround : round rs b 0 with ⟨b', n, halted⟩
      have hsucc := fun k => rounds_succ hround k report
      have hlater : ∀ k', k + 1 ≤ k' → ∃ i, k' = i + 1 ∧ k ≤ i := fun k' hk' =>
        ⟨k' - 1, by omega, by omega⟩
      by_cases hstop : (halted || n == 0) = true
      · rw [hsucc, if_pos hstop] at h ⊢
        simp only [Bool.and_eq_true, Bool.not_eq_true', beq_iff_eq] at h
        obtain ⟨rfl, rfl⟩ := h
        obtain ⟨rfl, hquiet⟩ := allQuiet_of_round hround
        refine ⟨hquiet, fun k' hk' => ?_⟩
        obtain ⟨i, rfl, -⟩ := hlater k' hk'
        rw [hsucc, if_pos hstop]
      · rw [hsucc, if_neg hstop] at h ⊢
        have hgoes : (!halted && n == 0) = false := by
          simp only [Bool.or_eq_true, not_or, Bool.not_eq_true] at hstop
          rw [hstop.2, Bool.and_false]
        obtain ⟨-, hquiet, hmore⟩ := ih hgoes h
        refine ⟨hquiet, fun k' hk' => ?_⟩
        obtain ⟨i, rfl, hi⟩ := hlater k' hk'
        rw [hsucc, if_neg hstop, hmore i hi]

end Pipeline

open Pipeline

/-- A run that has converged leaves a block that does not nest deeper than the depth limit, that
the same run leaves alone at once, and that no larger number of rounds would change. -/
theorem simplify_of_converged (options : Options) (paths : Option Paths) (b : Block)
    (h : (b.simplify options paths).2.converged = true) :
    (b.simplify options paths).1.levels ≤ maxDepth ∧
      (b.simplify options paths).1.simplify options paths
        = ((b.simplify options paths).1, ⟨1, 0, true⟩) ∧
      ∀ limit, options.maxIterations ≤ limit →
        b.simplify { options with maxIterations := limit } paths = b.simplify options paths := by
  obtain ⟨hpos, hquiet, hmore⟩ := rounds_of_converged rfl h
  refine ⟨?_, ?_, hmore⟩
  · -- the folding walk is one of them
    exact (Pass.walk_of_quiet (hquiet _ List.mem_cons_self)).2
  · obtain ⟨k, hk⟩ := Nat.exists_eq_add_one.mpr hpos
    have hagain := rounds_succ (round_of_allQuiet hquiet 0) k ⟨0, 0, false⟩
    rw [← hk] at hagain
    exact hagain

/-- `_t = pc; stk[_t] = #{}`: promoted, inlined and removed in two rounds. -/
theorem simplify_of_converged_chain :
    let b : Block :=
      [.assign 1 [.name "_t"] [.name "pc"],
       .assign 2 [.index (.name "stk") (.name "_t")] [.unary .len (.table [])]]
    (b.simplify .standard none).2 = ⟨3, 4, true⟩ ∧
      (b.simplify .standard none).1.simplify .standard none
        = ((b.simplify .standard none).1, ⟨1, 0, true⟩) := by
  intro b
  have hreport : (b.simplify .standard none).2 = ⟨3, 4, true⟩ := by decide
  have hconverged : (b.simplify .standard none).2.converged = true := by rw [hreport]
  exact ⟨hreport, (simplify_of_converged .standard none b hconverged).2.1⟩

end Devirt
