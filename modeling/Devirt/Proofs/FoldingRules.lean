import Devirt.Pass.Folding
import Mathlib.Tactic

set_option autoImplicit false

/-! # What folding answers

The three rules as a relation between a node and the answer (`FoldsTo`).  Folding answers a node exactly if
one of the rules is for it (`onExpr_eq_some_iff`), and none is exactly if the node is not `Foldable`. -/

namespace Devirt

/-- The operators that compare. -/
def BinaryOp.comparisons : List BinaryOp := [.eq, .ne, .lt, .gt, .le, .ge]

/-- The comparisons are the operators whose operands may trade places. -/
theorem BinaryOp.mem_comparisons_iff {op : BinaryOp} :
    op ∈ comparisons ↔ ∃ op', op.converse = some op' := by
  cases op <;> simp [comparisons, converse]

namespace Folding

/-- A constructor that surely has an element for each of its entries. -/
def IsArray (entries : List Entry) : Prop :=
  ∀ e ∈ entries, ∃ v, e = .positional v ∧ v.isLiteral = true ∧ v ≠ .nil

theorem isArrayItem_iff {e : Entry} :
    isArrayItem e = true ↔ ∃ v, e = .positional v ∧ v.isLiteral = true ∧ v ≠ .nil := by
  cases e with
  | positional v => cases v <;> simp [isArrayItem, Expr.isLiteral]
  | keyed k v => simp [isArrayItem]

theorem isArray_iff {entries : List Entry} : entries.all isArrayItem = true ↔ IsArray entries := by
  rw [List.all_eq_true]
  exact forall₂_congr fun _ _ => isArrayItem_iff

/-- The second expression is what folding makes of the first. -/
inductive FoldsTo : Expr → Expr → Prop where
  | negation (x : Double) : FoldsTo (.unary .neg (.number x)) (.number (-x))
  | length {entries : List Entry} : IsArray entries →
      FoldsTo (.unary .len (.table entries)) (.number (Double.ofNat entries.length))
  | comparison {op op' : BinaryOp} {x : Double} {r : Expr} : op.converse = some op' →
      r.isLiteral = false → FoldsTo (.binary op (.number x) r) (.binary op' r (.number x))

/-- What one of the rules is for. -/
inductive Foldable : Expr → Prop where
  | negation (x : Double) : Foldable (.unary .neg (.number x))
  | length {entries : List Entry} : IsArray entries → Foldable (.unary .len (.table entries))
  | comparison {op : BinaryOp} {x : Double} {r : Expr} : op ∈ BinaryOp.comparisons →
      r.isLiteral = false → Foldable (.binary op (.number x) r)

theorem foldsTo_of_onExpr {e e' : Expr} (h : pass.onExpr e = some e') : FoldsTo e e' := by
  cases e with
  | unary op e =>
      change unary op e = some e' at h
      unfold unary at h
      split at h
      · obtain rfl := Option.some.inj h
        exact .negation _
      · split at h
        · rename_i hall
          obtain rfl := Option.some.inj h
          exact .length (isArray_iff.mp hall)
        · contradiction
      · contradiction
  | binary op l r =>
      change binary op l r = some e' at h
      unfold binary at h
      split at h
      · split at h
        · contradiction
        · rename_i hr
          obtain ⟨op', hop, rfl⟩ := Option.map_eq_some_iff.mp h
          exact .comparison hop (Bool.eq_false_iff.mpr hr)
      · contradiction
  | _ => contradiction

/-- Folding answers exactly what the rules say. -/
theorem onExpr_eq_some_iff {e e' : Expr} : pass.onExpr e = some e' ↔ FoldsTo e e' := by
  refine ⟨foldsTo_of_onExpr, fun h => ?_⟩
  cases h with
  | negation x => rfl
  | length hall =>
      show unary .len (.table _) = _
      rw [unary, if_pos (isArray_iff.mpr hall)]
  | comparison hop hr =>
      show binary _ (.number _) _ = _
      rw [binary, hr, hop]
      rfl

theorem foldable_iff {e : Expr} : Foldable e ↔ ∃ e', FoldsTo e e' := by
  constructor
  · intro h
    cases h with
    | negation x => exact ⟨_, .negation x⟩
    | length hall => exact ⟨_, .length hall⟩
    | comparison hop hr =>
        obtain ⟨op', hop'⟩ := BinaryOp.mem_comparisons_iff.mp hop
        exact ⟨_, .comparison hop' hr⟩
  · rintro ⟨e', h⟩
    cases h with
    | negation x => exact .negation x
    | length hall => exact .length hall
    | comparison hop hr => exact .comparison (BinaryOp.mem_comparisons_iff.mpr ⟨_, hop⟩) hr

/-- Folding declines what none of the rules is for. -/
theorem onExpr_eq_none_iff {e : Expr} : pass.onExpr e = none ↔ ¬ Foldable e := by
  rw [foldable_iff, Option.eq_none_iff_forall_not_mem]
  simp only [Option.mem_def, onExpr_eq_some_iff, not_exists]

theorem onStmt_eq_none (s : Stmt) : pass.onStmt s = none := by
  cases s <;> rfl

end Folding

end Devirt
