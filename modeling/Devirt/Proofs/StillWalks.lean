import Devirt.Proofs.Fixpoint

set_option autoImplicit false

/-! # Walks that replace nothing

A walk over a block at rest replaces nothing, however deep the block nests (`Pass.still_of_atRest`).

Conversely, a walk is halted in a block that nests within the depth limit only after it has replaced
something (`haltsLate_of_levels`): it takes a replacement to nest it deeper.  So a walk that replaces nothing in
such a block comes to its end, and has found the block at rest (`Pass.replaces_nothing_iff`). -/

namespace Devirt

namespace Walk

namespace Progress

/-- Replacements stay counted, and a walk that goes on at first is halted only after one more. -/
structure HaltsLate (w w' : Progress) : Prop where
  replacements : w.replacements ≤ w'.replacements
  halted : w'.halted = true → w.halted = true ∨ w.replacements < w'.replacements

variable {w w' w'' : Progress}

theorem HaltsLate.refl (w : Progress) : HaltsLate w w := ⟨le_rfl, Or.inl⟩

theorem HaltsLate.trans (h : HaltsLate w w') (h' : HaltsLate w' w'') : HaltsLate w w'' := by
  refine ⟨h.replacements.trans h'.replacements, fun hw => ?_⟩
  rcases h'.halted hw with hw' | hmore
  · exact (h.halted hw').imp_right fun hmore => hmore.trans_le h'.replacements
  · exact .inr (h.replacements.trans_lt hmore)

theorem le_settle {α : Type} {visit : α → Progress → α × Progress} {hook : α → Option α}
    (hvisit : ∀ x w, w.replacements ≤ (visit x w).2.replacements) (n : Nat) (x : α) (w : Progress) :
    w.replacements ≤ (settle visit hook n x w).2.replacements :=
  state_settle (R := fun w w' => w.replacements ≤ w'.replacements) le_trans (fun _ => Nat.le_succ _)
    (fun _ => le_rfl) hvisit n x w

theorem along_replacements : Along fun w w' => w.replacements ≤ w'.replacements where
  refl _ := le_rfl
  trans := le_trans
  stop w cause := (replacements_stop w cause).ge
  settle hvisit := le_settle hvisit maxRounds

/-- Only the first visit of a slot matters, since the next one comes after a replacement. -/
theorem haltsLate_settle {α : Type} {visit : α → Progress → α × Progress} {hook : α → Option α}
    (hle : ∀ x w, w.replacements ≤ (visit x w).2.replacements) {x : α} {w : Progress}
    (hfirst : HaltsLate w (visit x w).2) (n : Nat) : HaltsLate w (settle visit hook n x w).2 := by
  cases n with
  | zero => exact ⟨le_rfl, Or.inl⟩
  | succ n =>
      rcases settle_succ visit hook n x w with ⟨hlast, -⟩ | ⟨y, -, -, hagain⟩
      · rw [hlast]
        exact hfirst
      · rw [hagain]
        have hmore : w.replacements < (settle visit hook n y (visit x w).2.replaced).2.replacements :=
          calc w.replacements < (visit x w).2.replaced.replacements :=
                Nat.lt_succ_of_le hfirst.replacements
            _ ≤ _ := le_settle hle n y (visit x w).2.replaced
        exact ⟨hmore.le, fun _ => .inr hmore⟩

end Progress

open Progress

/-- A walk over a block that nests within the depth limit is halted only after a replacement, whatever the
pass answers. -/
theorem haltsLate_of_levels (p : Pass) {b : Block} (hlevels : b.levels ≤ maxDepth) :
    HaltsLate .start (p.walk b).2 := by
  have hroom : b.levels + 0 ≤ maxDepth := hlevels
  refine state_within HaltsLate.refl HaltsLate.trans ?_ ?_ ?_ hroom
  · intro fuel n depth e w _ _ _ he
    obtain ⟨hleE, -, hleB⟩ := along_replacements.walk p fuel
    exact haltsLate_settle (along_replacements.expr (hleE (depth + 1)) (hleB (depth + 1))) he _
  · intro fuel depth s w hs
    obtain ⟨hleE, -, hleB⟩ := along_replacements.walk p fuel
    exact haltsLate_settle (along_replacements.stmt (hleE depth) (hleB depth)) hs _
  · intro fuel depth b w hb
    obtain ⟨-, hleS, -⟩ := along_replacements.walk p fuel
    exact haltsLate_settle (along_replacements.list (hleS depth)) hb _

end Walk

open Walk Walk.Progress

namespace Pass

variable {p : Pass} {b : Block}

/-- Nothing is replaced in a block at rest, be the walk halted or not. -/
theorem still_of_atRest (h : AtRest p (.block b)) :
    (p.walk b).1 = b ∧ (p.walk b).2.replacements = 0 := by
  have hsteps := p.walk_rewrites b
  generalize (p.walk b).2.replacements = n at hsteps
  generalize (p.walk b).1 = b' at hsteps
  cases hsteps with
  | refl => exact ⟨rfl, rfl⟩
  | step hstep _ => exact absurd (.block hstep) h.not_step

/-- A walk that replaces nothing in a block within the depth limit has found it at rest. -/
theorem replaces_nothing_iff (hlevels : b.levels ≤ maxDepth) :
    (p.walk b).2.replacements = 0 ↔ AtRest p (.block b) := by
  constructor
  · intro hnone
    have hlate := haltsLate_of_levels p hlevels
    have hgoing : (p.walk b).2.halted = false := by
      rw [← Bool.not_eq_true]
      intro hhalted
      -- it went on at first, and there is no replacement to halt it
      rcases hlate.halted hhalted with hstart | hmore
      · contradiction
      · rw [hnone] at hmore
        exact absurd hmore (Nat.not_lt_zero _)
    exact (rests_of_quiet ⟨hnone, hgoing⟩).2.atRest
  · exact fun h => (still_of_atRest h).2

end Pass

end Devirt
