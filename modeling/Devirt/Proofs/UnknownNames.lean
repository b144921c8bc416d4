import Devirt.Proofs.Containing
import Devirt.Proofs.StillWalks
import Devirt.Proofs.TemporaryRules

set_option autoImplicit false

/-! # Names without an entry

Every rule for temporaries asks the usage table about the names it is going to touch, and declines where
the table knows nothing of them.  So a tree whose names have no entry is at rest, and a walk with such a table
replaces nothing.

There is one exception.  A `local` is dead if every name it declares is known and never read; that holds of
a `local` without names whatever the table says.  Such a tree is at rest if and only if every `local` in it
declares something (`atRest_of_ignores`, `named_of_atRest`). -/

namespace Devirt

open Walk Walk.Progress

/-! ## Names in a tree -/

/-- The names that a statement declares or runs over. -/
def Stmt.introduces : Stmt → List String
  | .declare _ names _ | .genericFor names _ _ => names
  | .numericFor var _ _ _ _ => [var]
  | _ => []

/-- The name stands somewhere in the slot. -/
inductive Walk.Slot.Names (t : Slot) (n : String) : Prop where
  | expr : t.Contains (.expr (.name n)) → Names t n
  | stmt {b : Block} {s : Stmt} : t.Contains (.block b) → s ∈ b → n ∈ s.introduces → Names t n
  | param {params : List String} {variadic : Bool} {body : Block} :
      t.Contains (.expr (.function params variadic body)) → n ∈ params → Names t n

theorem Walk.Slot.Contains.trans {t u v : Slot} (h : t.Contains u) (h' : u.Contains v) :
    t.Contains v := by
  induction h with
  | refl t => exact h'
  | expr ht _ ih => exact .expr ht (ih h')
  | block hs ht _ ih => exact .block hs ht (ih h')

/-- The names in a part of a slot are among its own. -/
theorem Walk.Slot.Names.of_contains {t u : Slot} {n : String} (h : u.Names n) (ht : t.Contains u) :
    t.Names n := by
  cases h with
  | expr hn => exact .expr (ht.trans hn)
  | stmt hb hs hn => exact .stmt (ht.trans hb) hs hn
  | param hf hn => exact .param (ht.trans hf) hn

/-- The names in an expression: the expression itself, the parameters of a function, and what is below. -/
theorem Walk.names_expr {e : Expr} {n : String} :
    (Slot.expr e).Names n ↔ e = .name n ∨
      (∃ params variadic body, e = .function params variadic body ∧ n ∈ params) ∨
      ∃ t ∈ exprSlots e, t.Names n := by
  constructor
  · rintro (h | ⟨h, hs, hn⟩ | ⟨h, hn⟩)
    · cases h with
      | refl => exact .inl rfl
      | expr ht h => exact .inr (.inr ⟨_, ht, .expr h⟩)
    · cases h with
      | expr ht h => exact .inr (.inr ⟨_, ht, .stmt h hs hn⟩)
    · cases h with
      | refl => exact .inr (.inl ⟨_, _, _, rfl, hn⟩)
      | expr ht h => exact .inr (.inr ⟨_, ht, .param h hn⟩)
  · rintro (rfl | ⟨params, variadic, body, rfl, hn⟩ | ⟨t, ht, hn⟩)
    · exact .expr (.refl _)
    · exact .param (.refl _) hn
    · exact hn.of_contains (.expr ht (.refl t))

/-- The names in a block: what its statements introduce, and what is below them. -/
theorem Walk.names_block {b : Block} {n : String} :
    (Slot.block b).Names n ↔ ∃ s ∈ b, n ∈ s.introduces ∨ ∃ t ∈ stmtSlots s, t.Names n := by
  constructor
  · rintro (h | ⟨h, hs, hn⟩ | ⟨h, hn⟩)
    · cases h with
      | block hs ht h => exact ⟨_, hs, .inr ⟨_, ht, .expr h⟩⟩
    · cases h with
      | refl => exact ⟨_, hs, .inl hn⟩
      | block hs' ht h => exact ⟨_, hs', .inr ⟨_, ht, .stmt h hs hn⟩⟩
    · cases h with
      | block hs ht h => exact ⟨_, hs, .inr ⟨_, ht, .param h hn⟩⟩
  · rintro ⟨s, hs, hn | ⟨t, ht, hn⟩⟩
    · exact .stmt (.refl _) hs hn
    · exact hn.of_contains (.block hs ht (.refl t))

/-- The statement is a `local` that declares nothing. -/
def Stmt.isNameless : Stmt → Bool
  | .declare _ [] _ => true
  | _ => false

namespace Temporaries

namespace Context

variable (c : Context)

/-- The table has no entry for the names in the slot. -/
def Ignores (t : Slot) : Prop := ∀ n, t.Names n → c.usage.get? n = none

variable {c}

theorem Ignores.below {t u : Slot} (h : c.Ignores t) (ht : t.Contains u) : c.Ignores u :=
  fun n hn => h n (hn.of_contains ht)

/-! ## What the rules answer without an entry -/

theorem substitute_of_ignores {e : Expr} (h : c.Ignores (.expr e)) : c.substitute e = none := by
  rw [← Option.not_isSome_iff_eq_none, Option.isSome_iff_exists]
  rintro ⟨e', he'⟩
  obtain ⟨n, v, rfl, hv, -, -⟩ := substitute_eq_some he'
  have hentry := (temporary_eq_some.mp hv).2.1
  rw [h n (.expr (.refl _))] at hentry
  contradiction

theorem substitutePair_of_ignores {l r : Expr} (hl : c.Ignores (.expr l)) (hr : c.Ignores (.expr r)) :
    c.substitutePair l r = none := by
  rw [substitutePair, substitute_of_ignores hl, substitute_of_ignores hr]

theorem declaredBy_of_ignores {id : NodeId} {e : Expr} (h : c.Ignores (.expr e)) :
    c.declaredBy id e = false := by
  rw [← Bool.not_eq_true]
  intro hdeclared
  obtain ⟨n, v, rfl, hv, -⟩ := declaredBy_eq_true hdeclared
  have hentry := (temporary_eq_some.mp hv).2.1
  rw [h n (.expr (.refl _))] at hentry
  contradiction

/-- No operation, element or call is replaced. -/
theorem onExpr_of_ignores {e : Expr} (h : ∀ t ∈ exprSlots e, c.Ignores t) :
    c.pass.onExpr e = none := by
  rw [← Option.not_isSome_iff_eq_none, Option.isSome_iff_exists]
  rintro ⟨e', he'⟩
  -- whatever is replaced, it is two expressions right below
  obtain ⟨l, r, p, hp, hform⟩ := onExpr_eq_some he'
  have hbelow : .expr l ∈ exprSlots e ∧ .expr r ∈ exprSlots e := by
    rcases hform with ⟨op, rfl, -⟩ | ⟨rfl, -⟩ | ⟨f, rfl, -⟩ <;> simp [exprSlots]
  rw [substitutePair_of_ignores (h _ hbelow.1) (h _ hbelow.2)] at hp
  contradiction

/-- No assignment becomes a declaration or gets another value, and no call is replaced. -/
theorem onStmt_of_ignores {s : Stmt} (h : ∀ t ∈ stmtSlots s, c.Ignores t) :
    c.pass.onStmt s = none := by
  cases s with
  | assign id targets values =>
      rw [← Option.not_isSome_iff_eq_none, Option.isSome_iff_exists]
      rintro ⟨s', hs'⟩
      rcases assign_eq_some hs' with ⟨hall, -⟩ | ⟨t, v, v', rfl, rfl, hv, -⟩
      · obtain ⟨t, ht⟩ := List.exists_mem_of_ne_nil targets (targets_ne_nil_of_assign hs')
        have htarget : .expr t ∈ stmtSlots (.assign id targets values) :=
          List.mem_append_left _ (List.mem_map_of_mem ht)
        have hdeclared := hall t ht
        rw [declaredBy_of_ignores (h _ htarget)] at hdeclared
        contradiction
      · rw [substitute_of_ignores (h (.expr v) (by simp [stmtSlots]))] at hv
        contradiction
  | call f args =>
      have hcall : c.pass.onExpr (.call f args) = none := onExpr_of_ignores h
      exact Option.map_eq_none_iff.mpr (Option.map_eq_none_iff.mp hcall)
  | _ => rfl

/-- A `local` that declares nothing is dead, whatever the table says. -/
theorem isDeadStmt_of_isNameless {s : Stmt} (h : s.isNameless = true) : c.isDeadStmt s = true := by
  cases s with
  | declare id names values =>
      cases names with
      | nil => rfl
      | cons n names => contradiction
  | _ => contradiction

/-- No other statement is dead. -/
theorem isDeadStmt_of_ignores {s : Stmt} (h : ∀ n ∈ s.introduces, c.usage.get? n = none)
    (hs : s.isNameless = false) : c.isDeadStmt s = false := by
  rw [← Bool.not_eq_true]
  intro hdead
  cases s with
  | declare id names values =>
      cases names with
      | nil => contradiction
      | cons n names =>
          obtain ⟨v, hv, -⟩ := isDead_eq_true hdead (List.mem_cons_self (a := n) (l := names))
          rw [h n List.mem_cons_self] at hv
          contradiction
  | _ => contradiction

theorem block_eq_none_iff {b : Block} : c.block b = none ↔ ∀ s ∈ b, c.isDeadStmt s = false := by
  unfold block
  split
  · rename_i hdead
    obtain ⟨s, hs, hdead⟩ := List.any_eq_true.mp hdead
    refine iff_of_false (by simp) fun hall => ?_
    rw [hall s hs] at hdead
    contradiction
  · rename_i hlive
    refine iff_of_true rfl fun s hs => ?_
    rw [← Bool.not_eq_true]
    exact fun hdead => hlive (List.any_eq_true.mpr ⟨s, hs, hdead⟩)

/-! ## Trees at rest -/

/-- A tree that the table ignores is at rest if every `local` in it declares something. -/
theorem atRest_of_ignores {t : Slot} (h : c.Ignores t)
    (hnamed : t.EveryStmt fun s => s.isNameless = false) : AtRest c.pass t := by
  induction t using Slot.induction with
  | expr e ih =>
      have hbelow : ∀ t ∈ exprSlots e, c.Ignores t := fun t ht => h.below (.expr ht (.refl t))
      refine .expr (onExpr_of_ignores hbelow) fun t ht => ih t ht (hbelow t ht) ?_
      exact everyStmt_expr.mp hnamed t ht
  | block b ih =>
      have hbelow : ∀ s ∈ b, ∀ t ∈ stmtSlots s, c.Ignores t :=
        fun s hs t ht => h.below (.block hs ht (.refl t))
      rw [everyStmt_block] at hnamed
      have hhook : c.block b = none := block_eq_none_iff.mpr fun s hs =>
        isDeadStmt_of_ignores (fun n hn => h n (.stmt (.refl _) hs hn)) (hnamed s hs).1
      refine .block hhook (fun s hs => onStmt_of_ignores (hbelow s hs)) fun s hs t ht => ?_
      exact ih s hs t ht (hbelow s hs t ht) ((hnamed s hs).2 t ht)

/-- In a tree at rest every `local` declares something. -/
theorem named_of_atRest {t : Slot} (h : AtRest c.pass t) :
    t.EveryStmt fun s => s.isNameless = false := by
  intro b hb s hs
  cases h.of_contains hb with
  | block hhook _ _ =>
      have hhook : c.block b = none := hhook
      rw [← Bool.not_eq_true]
      intro hnameless
      have hdead := isDeadStmt_of_isNameless (c := c) hnameless
      rw [block_eq_none_iff.mp hhook s hs] at hdead
      contradiction

end Context

/-- With a table that has no entry for the names of a block, nothing is replaced if every `local` declares
something; and where one declares nothing, something is replaced, if the block nests within the depth
limit. -/
theorem run_of_unknown (options : Options) (usage : UsageTable) (b : Block)
    (hunknown : ∀ n, (Slot.block b).Names n → usage.get? n = none) :
    let named := (Slot.block b).EveryStmt fun s => s.isNameless = false
    (named → (stageWith options usage).run b = (b, 0)) ∧
      (b.levels ≤ maxDepth → ¬ named → 0 < ((stageWith options usage).run b).2) := by
  have hignores : (Context.mk options usage).Ignores (.block b) := hunknown
  constructor
  · intro hnamed
    obtain ⟨hsame, hnone⟩ := Pass.still_of_atRest (Context.atRest_of_ignores hignores hnamed)
    exact Prod.ext hsame hnone
  · intro hlevels hnameless
    rw [Nat.pos_iff_ne_zero]
    intro hnone
    have hrest := (Pass.replaces_nothing_iff hlevels).mp hnone
    exact hnameless (Context.named_of_atRest hrest)

/-- `local _1 = 5; while pc do _2 = t[_1] end; return function(k) _3 = k end`, with what is known of `x` in
`local x = a; return x`: nothing is replaced, until a `local` without names stands before it. -/
theorem run_of_unknown_loop :
    let usage : UsageTable := Dict.empty.insert "x" ⟨1, 0, some 1, some (.name "a"), false⟩
    let b : Block :=
      [.declare 1 ["_1"] [.number (Double.ofInt 5)],
       .whileLoop (.name "pc") [.assign 2 [.name "_2"] [.index (.name "t") (.name "_1")]],
       .ret [.function ["k"] false [.assign 3 [.name "_3"] [.name "k"]]]]
    let nameless : Stmt := .declare 4 [] [.call (.name "f") []]
    (stageWith .standard usage).run b = (b, 0) ∧
      0 < ((stageWith .standard usage).run (nameless :: b)).2 := by
  intro usage b nameless
  have hunknown : ∀ n, (Slot.block (nameless :: b)).Names n → usage.get? n = none := by
    intro n hn
    have hne : n ≠ "x" := by
      rintro rfl
      simp [b, nameless, names_block, names_expr, stmtSlots, exprSlots, Stmt.introduces] at hn
    rw [Dict.get?_insert, if_neg hne.symm, Dict.get?_empty]
  have hbelow : ∀ n, (Slot.block b).Names n → usage.get? n = none := by
    intro n hn
    rw [names_block] at hn
    obtain ⟨s, hs, hn⟩ := hn
    exact hunknown n (names_block.mpr ⟨s, List.mem_cons_of_mem _ hs, hn⟩)
  constructor
  · refine (run_of_unknown .standard usage b hbelow).1 ?_
    simp [b, everyStmt_block, everyStmt_expr, stmtSlots, exprSlots, Stmt.isNameless]
  · refine (run_of_unknown .standard usage (nameless :: b) hunknown).2 (by decide) ?_
    intro hnamed
    have hfirst := (everyStmt_block.mp hnamed nameless List.mem_cons_self).1
    contradiction

/-- A `local` without names, with the value `f()`: the call is gone, although nothing is known of `f`. -/
theorem run_nameless :
    let b : Block := [.declare 1 [] [.call (.name "f") []]]
    (∀ n, (Slot.block b).Names n → (Dict.empty : UsageTable).get? n = none) ∧
      (stageWith .standard .empty).run b = ([], 1) := by
  intro b
  exact ⟨fun n _ => Dict.get?_empty n, rfl⟩

end Temporaries

end Devirt
