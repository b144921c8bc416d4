import Devirt.Proofs.Containing
import Devirt.Proofs.FoldingRules
import Devirt.Proofs.SmoothWalks

set_option autoImplicit false

/-! # Folding is done after one walk

What folding answers is a number, or a comparison with the number on its right, which no rule is for; so
folding is prompt, and one walk settles a block that nests no deeper than the depth limit.  Rules enable
one another only upwards: a number that was folded is found by the rule for the node above it, which is
asked later. -/

namespace Devirt

open Walk

namespace Folding

theorem atRest_number (x : Double) : AtRest pass (.expr (.number x)) :=
  .expr rfl (by simp [exprSlots])

/-- A comparison with a number on its right is not folded again. -/
theorem not_foldable_comparison {op : BinaryOp} {r : Expr} {x : Double} (hr : r.isLiteral = false) :
    ¬ Foldable (.binary op r (.number x)) := by
  intro h
  cases h
  contradiction

theorem prompt_pass : pass.Prompt where
  onStmt := onStmt_eq_none
  block _ := rfl
  rests e e' h hbelow := by
    cases foldsTo_of_onExpr h with
    | negation x => exact atRest_number _
    | length hall => exact atRest_number _
    | comparison hop hr =>
        refine .expr (onExpr_eq_none_iff.mpr (not_foldable_comparison hr)) ?_
        simp only [exprSlots, List.forall_mem_cons, List.not_mem_nil, false_implies, implies_true,
          and_true] at hbelow ⊢
        exact ⟨hbelow.2, hbelow.1⟩
  levels e e' h := by
    cases foldsTo_of_onExpr h with
    | negation x | length hall => simp [exprLevels]
    | comparison hop hr => simp only [exprLevels, max_comm, le_refl]
  blocks e e' h := flat_pass.onExpr e e' h

/-- If no expression of a block nests more than 512 levels, function bodies included, then one walk of
folding is not halted and gives up no slot, leaves nothing that can be folded anywhere in the block, and a
second walk replaces nothing. -/
theorem not_foldable_walk (b : Block) (hlevels : b.levels ≤ 512) :
    (pass.walk b).2.halt = none ∧ (pass.walk b).2.capped = 0 ∧
      (∀ e, (Slot.block (stage.run b).1).Contains (.expr e) → ¬ Foldable e) ∧
      stage.run (stage.run b).1 = ((stage.run b).1, 0) := by
  have hsmooth := prompt_pass.smooth hlevels
  obtain ⟨hrest, hsecond⟩ := Pass.walk_of_smooth hsmooth
  refine ⟨?_, hsmooth.capped, fun e he => ?_, ?_⟩
  · simpa [Progress.halted] using hsmooth.halted
  · exact onExpr_eq_none_iff.mp (hrest.onExpr_eq_none he)
  · show ((pass.walk (pass.walk b).1).1, (pass.walk (pass.walk b).1).2.replacements) = _
    rw [show pass.walk (pass.walk b).1 = ((pass.walk b).1, .start) from hsecond]
    rfl

/-- `while -(-4) < f(#{true, "a"}) do t[function() return 1 == x end] = {[-2] = -y} end` becomes
`while f(2) > 4 do t[function() return x == 1 end] = {[-2] = -y} end`. -/
theorem not_foldable_walk_nested :
    let four : Expr := .unary .neg (.unary .neg (.number (Double.ofNat 4)))
    let two : Expr := .unary .len (.table [.positional (.bool true), .positional (.string "a")])
    let key : Expr := .function [] false [.ret [.binary .eq (.number (Double.ofNat 1)) (.name "x")]]
    let entry : Entry := .keyed (.unary .neg (.number (Double.ofNat 2))) (.unary .neg (.name "y"))
    let b : Block := [.whileLoop (.binary .lt four (.call (.name "f") [two]))
      [.assign 1 [.index (.name "t") key] [.table [entry]]]]
    b.levels ≤ 512 ∧ (pass.walk b).2.halt = none ∧ (pass.walk b).2.capped = 0 ∧
      (∀ e, (Slot.block (stage.run b).1).Contains (.expr e) → ¬ Foldable e) ∧
      stage.run (stage.run b).1 = ((stage.run b).1, 0) := by
  intro four two key entry b
  have hlevels : b.levels ≤ 512 := by decide
  exact ⟨hlevels, not_foldable_walk b hlevels⟩

end Folding

end Devirt
