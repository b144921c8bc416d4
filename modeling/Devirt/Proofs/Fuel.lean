import Devirt.Pass.Pipeline
import Devirt.Proofs.FoldingRules
import Devirt.Proofs.Slots
import Devirt.Proofs.TemporaryRules

set_option autoImplicit false

/-! # The fuel of a walk suffices

A pass keeps blocks flat if its answers nest blocks no deeper than what they replace
(`Pass.Flat`).  Walking down, such a pass meets a statement and a block for every level of blocks,
and an expression for every level of expressions, of which the depth limit admits `maxDepth + 1`.
So the fuel that a walk is given is never used up: if the walk is halted, it is because expressions
nest too deep (`Pass.halt_walk`).

Folding and collapsing temporaries keep blocks flat.  What stands for a temporary contains no
function: it must not mention the temporary, and a function body might. -/

namespace Devirt

open Walk

/-- The answers of the pass nest blocks no deeper than what they replace. -/
structure Pass.Flat (p : Pass) : Prop where
  onExpr : ∀ e e', p.onExpr e = some e' → exprBlocks e' ≤ exprBlocks e
  onStmt : ∀ s s', p.onStmt s = some s' → stmtBlocks s' ≤ stmtBlocks s
  block : ∀ b b', p.block b = some b' → stmtsBlocks b' ≤ stmtsBlocks b

namespace Walk

/-! ## Visits and settled slots -/

/-- What a visit and an answer keep of a slot and of the state, settling the slot keeps. -/
theorem settle_keeps {α : Type} {visit : α → Progress → α × Progress} {hook : α → Option α}
    {P : α → Prop} {I : Progress → Prop}
    (hvisit : ∀ x w, P x → I w → I (visit x w).2 ∧ P (visit x w).1)
    (hhook : ∀ x y, hook x = some y → P x → P y) (hreplaced : ∀ w, I w → I w.replaced)
    (hgiveUp : ∀ w, I w → I w.giveUp) (n : Nat) {x : α} {w : Progress} (hx : P x) (hw : I w) :
    I (settle visit hook n x w).2 ∧ P (settle visit hook n x w).1 := by
  induction n generalizing x w with
  | zero => exact ⟨hgiveUp w hw, hx⟩
  | succ n ih =>
      have hv := hvisit x w hx hw
      rcases settle_succ visit hook n x w with ⟨hlast, -⟩ | ⟨y, -, hy, hagain⟩
      · rw [hlast]
        exact hv
      · rw [hagain]
        exact ih (hhook _ y hy hv.2) (hreplaced _ hv.1)

/-- The walk has not run out of fuel. -/
def Fueled (w : Progress) : Prop := w.halt ≠ some .fuel

theorem fueled_nesting {w : Progress} (h : Fueled w) : Fueled (w.stop .nesting) := by
  unfold Progress.stop
  split
  · exact h
  · simp [Fueled]

section

variable {n : Nat} {onExpr : Expr → Progress → Expr × Progress}
  {onBlock : Block → Progress → Block × Progress}
  (hE : ∀ e w, exprBlocks e ≤ n → Fueled w →
    Fueled (onExpr e w).2 ∧ exprBlocks (onExpr e w).1 ≤ n)
  (hB : ∀ b w, stmtsBlocks b + 1 ≤ n → Fueled w →
    Fueled (onBlock b w).2 ∧ stmtsBlocks (onBlock b w).1 + 1 ≤ n)

include hE hB

theorem fueled_slots {xs : List Slot} {w : Progress} (hx : ∀ s ∈ xs, s.blocks ≤ n)
    (hw : Fueled w) :
    Fueled (visitList (visitSlot onExpr onBlock) xs w).2 ∧
      ∀ s ∈ (visitList (visitSlot onExpr onBlock) xs w).1, s.blocks ≤ n := by
  refine visitList_forall (P := fun s => s.blocks ≤ n) (fun s w hs hw => ?_) hx hw
  cases s with
  | expr e => exact hE e w hs hw
  | block b => exact hB b w hs hw

theorem fueled_visitExpr (e : Expr) (w : Progress) (he : exprBlocks e ≤ n) (hw : Fueled w) :
    Fueled (visitExpr onExpr onBlock e w).2 ∧
      exprBlocks (visitExpr onExpr onBlock e w).1 ≤ n := by
  have h := fueled_slots hE hB ((exprBlocks_le e).mp he) hw
  rwa [visitExpr_slots, ← exprBlocks_le] at h

theorem fueled_visitStmt (s : Stmt) (w : Progress) (hs : stmtBlocks s ≤ n) (hw : Fueled w) :
    Fueled (visitStmt onExpr onBlock s w).2 ∧
      stmtBlocks (visitStmt onExpr onBlock s w).1 ≤ n := by
  have h := fueled_slots hE hB ((stmtBlocks_le s).mp hs) hw
  rwa [visitStmt_slots, ← stmtBlocks_le] at h

end

/-! ## The walk -/

section

variable {p : Pass} (hp : p.Flat)

include hp

/-- With two units of fuel for each level of blocks, one for each level of expressions that the
depth limit admits, and those for the block and the statement to begin with, a walk does not run
out of it. -/
theorem fueled_walk (fuel : Nat) :
    (∀ n depth e w, 2 * n + maxDepth + 1 ≤ fuel + depth → depth ≤ maxDepth → exprBlocks e ≤ n →
        Fueled w → Fueled (walkExpr p fuel depth e w).2 ∧
          exprBlocks (walkExpr p fuel depth e w).1 ≤ n) ∧
      (∀ n depth s w, 2 * n + maxDepth + 2 ≤ fuel + depth → depth ≤ maxDepth → stmtBlocks s ≤ n →
        Fueled w → Fueled (walkStmt p fuel depth s w).2 ∧
          stmtBlocks (walkStmt p fuel depth s w).1 ≤ n) ∧
      ∀ n depth b w, 2 * n + maxDepth + 3 ≤ fuel + depth → depth ≤ maxDepth → stmtsBlocks b ≤ n →
        Fueled w → Fueled (walkBlock p fuel depth b w).2 ∧
          stmtsBlocks (walkBlock p fuel depth b w).1 ≤ n := by
  induction fuel with
  | zero => refine ⟨?_, ?_, ?_⟩ <;> intros <;> omega
  | succ fuel ih =>
      obtain ⟨hE, hS, hB⟩ := ih
      have hinner : ∀ n depth, 2 * n + maxDepth + 1 ≤ fuel + depth → depth ≤ maxDepth →
          ∀ b w, stmtsBlocks b + 1 ≤ n → Fueled w → Fueled (walkBlock p fuel depth b w).2 ∧
            stmtsBlocks (walkBlock p fuel depth b w).1 + 1 ≤ n := by
        intro n depth hfuel hdepth b w hb hw
        obtain ⟨m, rfl⟩ := Nat.exists_eq_add_of_le hb
        have h := hB (stmtsBlocks b + m) depth b w (by omega) hdepth (by omega) hw
        exact ⟨h.1, by omega⟩
      refine ⟨fun n depth e w hfuel hdepth he hw => ?_, fun n depth s w hfuel hdepth hs hw => ?_,
        fun n depth b w hfuel hdepth hb hw => ?_⟩
      · rw [walkExpr]
        split
        · exact ⟨hw, he⟩
        · split
          · exact ⟨fueled_nesting hw, he⟩
          · have hvisit := fueled_visitExpr (n := n)
              (fun e w => hE n (depth + 1) e w (by omega) (by omega))
              (hinner n (depth + 1) (by omega) (by omega))
            exact settle_keeps (P := fun e => exprBlocks e ≤ n) hvisit
              (fun e e' h he => (hp.onExpr e e' h).trans he) (fun _ h => h) (fun _ h => h) _ he hw
      · rw [walkStmt]
        have hvisit := fueled_visitStmt (n := n)
          (fun e w => hE n depth e w (by omega) hdepth) (hinner n depth (by omega) hdepth)
        exact settle_keeps (P := fun s => stmtBlocks s ≤ n) hvisit
          (fun s s' h hs => (hp.onStmt s s' h).trans hs) (fun _ h => h) (fun _ h => h) _ hs hw
      · rw [walkBlock]
        have hvisit : ∀ b w, stmtsBlocks b ≤ n → Fueled w →
            Fueled (visitList (walkStmt p fuel depth) b w).2 ∧
              stmtsBlocks (visitList (walkStmt p fuel depth) b w).1 ≤ n := by
          intro b w hb hw
          rw [stmtsBlocks_le] at hb ⊢
          exact visitList_forall (P := fun s => stmtBlocks s ≤ n)
            (fun s w hs hw => hS n depth s w (by omega) hdepth hs hw) hb hw
        exact settle_keeps (P := fun b => stmtsBlocks b ≤ n) hvisit
          (fun b b' h hb => (hp.block b b' h).trans hb) (fun _ h => h) (fun _ h => h) _ hb hw

end

end Walk

/-- The walk of a pass that keeps blocks flat is halted for the nesting of expressions only. -/
theorem Pass.halt_walk {p : Pass} (hp : p.Flat) (b : Block) :
    (p.walk b).2.halt = none ∨ (p.walk b).2.halt = some .nesting := by
  have h := ((fueled_walk hp (enoughFuel b)).2.2 (stmtsBlocks b) 0 b .start (le_enoughFuel b 0)
    (Nat.zero_le _) le_rfl (by simp [Fueled, Progress.start])).1
  change (p.walk b).2.halt ≠ some .fuel at h
  cases hhalt : (p.walk b).2.halt with
  | none => exact .inl rfl
  | some cause =>
      cases cause with
      | nesting => exact .inr rfl
      | fuel => exact absurd hhalt h

/-! ## Passes that keep blocks flat -/

mutual

/-- What surely does not mention some name contains no function. -/
theorem Walk.exprBlocks_of_mentions {n : String} : (e : Expr) → e.mentions n = false →
    exprBlocks e = 0
  | .nil, _ | .bool _, _ | .number _, _ | .string _, _ | .vararg, _ | .name _, _ => rfl
  | .binary _ l r, h => by
      simp only [Expr.mentions, Bool.or_eq_false_iff] at h
      simp [exprBlocks, exprBlocks_of_mentions l h.1, exprBlocks_of_mentions r h.2]
  | .unary _ e, h => exprBlocks_of_mentions e h
  | .member o _, h => exprBlocks_of_mentions o h
  | .index t k, h => by
      simp only [Expr.mentions, Bool.or_eq_false_iff] at h
      simp [exprBlocks, exprBlocks_of_mentions t h.1, exprBlocks_of_mentions k h.2]
  | .call f args, h => by
      simp only [Expr.mentions, Bool.or_eq_false_iff] at h
      simp [exprBlocks, exprBlocks_of_mentions f h.1, exprsBlocks_of_mentions args h.2]
  | .table entries, h => entriesBlocks_of_mentions entries h

theorem Walk.exprsBlocks_of_mentions {n : String} : (es : List Expr) →
    Expr.anyMentions n es = false → exprsBlocks es = 0
  | [], _ => rfl
  | e :: es, h => by
      simp only [Expr.anyMentions, Bool.or_eq_false_iff] at h
      simp [exprsBlocks, exprBlocks_of_mentions e h.1, exprsBlocks_of_mentions es h.2]

theorem Walk.entriesBlocks_of_mentions {n : String} : (es : List Entry) →
    Expr.anyEntryMentions n es = false → entriesBlocks es = 0
  | [], _ => rfl
  | .positional v :: es, h => by
      simp only [Expr.anyEntryMentions, Bool.or_eq_false_iff] at h
      simp [entriesBlocks, exprBlocks_of_mentions v h.1, entriesBlocks_of_mentions es h.2]
  | .keyed k v :: es, h => by
      simp only [Expr.anyEntryMentions, Bool.or_eq_false_iff] at h
      simp [entriesBlocks, exprBlocks_of_mentions k h.1.1, exprBlocks_of_mentions v h.1.2,
        entriesBlocks_of_mentions es h.2]

end

theorem Folding.flat_pass : Folding.pass.Flat where
  onExpr e e' h := by
    cases Folding.foldsTo_of_onExpr h with
    | negation x | length hall => exact Nat.zero_le _
    | comparison hop hr => simp [exprBlocks]
  onStmt s s' h := by cases s <;> contradiction
  block b b' h := by contradiction

namespace Temporaries.Context

variable {c : Context}

/-- What stands for a temporary contains no block. -/
theorem blocks_substitute {e e' : Expr} (h : c.substitute e = some e') : exprBlocks e' = 0 := by
  obtain ⟨n, v, -, -, -, hinline⟩ := substitute_eq_some h
  exact exprBlocks_of_mentions e' (mentions_of_inlinable hinline)

theorem blocks_substitutePair {l r : Expr} {p : Expr × Expr}
    (h : c.substitutePair l r = some p) :
    exprBlocks p.1 ≤ exprBlocks l ∧ exprBlocks p.2 ≤ exprBlocks r := by
  obtain ⟨h₁, h₂⟩ := substitutePair_eq_some h
  constructor
  · rcases h₁ with h₁ | h₁
    · rw [h₁]
    · rw [blocks_substitute h₁]
      exact Nat.zero_le _
  · rcases h₂ with h₂ | h₂
    · rw [h₂]
    · rw [blocks_substitute h₂]
      exact Nat.zero_le _

theorem blocks_call {f : Expr} {args : List Expr} {a : Expr × List Expr}
    (h : c.call f args = some a) :
    a.1 = f ∧ exprsBlocks a.2 ≤ exprsBlocks args := by
  obtain ⟨l, r, p, rfl, hp, rfl⟩ := call_eq_some h
  have hblocks := blocks_substitutePair hp
  refine ⟨rfl, ?_⟩
  simp only [exprsBlocks]
  omega

theorem flat_pass : c.pass.Flat where
  onExpr e e' h := by
    obtain ⟨l, r, p, hp, ⟨op, rfl, rfl⟩ | ⟨rfl, rfl⟩ | ⟨f, rfl, rfl⟩⟩ := onExpr_eq_some h
    all_goals
      have hblocks := blocks_substitutePair hp
      simp only [exprBlocks, exprsBlocks]
      omega
  onStmt s s' h := by
    cases s with
    | assign id targets values =>
        rcases assign_eq_some h with ⟨-, rfl⟩ | ⟨t, v, v', rfl, rfl, hv, rfl⟩
        · simp [stmtBlocks]
        · simp [stmtBlocks, exprsBlocks, blocks_substitute hv]
    | call f args =>
        obtain ⟨a, ha, rfl⟩ := Option.map_eq_some_iff.mp h
        obtain ⟨hf, hargs⟩ := blocks_call ha
        simp only [stmtBlocks, hf]
        omega
    | _ => contradiction
  block b b' h := by
    rw [block_eq_some h, stmtsBlocks_le]
    intro s hs
    exact (stmtsBlocks_le b).mp le_rfl s (List.mem_of_mem_filter hs)

end Temporaries.Context

/-- The stages of the standard pipeline without a mapping keep blocks flat. -/
theorem Pipeline.flat_standard (options : Options) :
    ∀ r ∈ (standard options none).stages, ∀ b, (r.prepare b).Flat := by
  simp only [standard, Option.toList_none, List.map_nil, List.nil_append, List.forall_mem_cons]
  exact ⟨fun _ => Folding.flat_pass, fun _ => Temporaries.Context.flat_pass, by simp⟩

end Devirt
