import Devirt.Pass.Pipeline
import Devirt.Proofs.Containing
import Devirt.Proofs.FoldingRules
import Devirt.Proofs.Fuel
import Devirt.Proofs.KeyChains

set_option autoImplicit false

/-! # What may be assigned to

The tree admits any expression as the target of an assignment; the language admits names, selections and
elements (`Expr.isAssignable`).  Targets are walked like any other expression.  Folding has no answer for
what is assignable, and collapsing temporaries answers an element with an element.  A mapping answers a
selection with a path, which is assignable, or with a number, which is not: it is the only stage that puts
something into a target that must not stand there, and it does so exactly for fields that stand for a
number, at once or by way of other keys (`Indirection.EndsInNumber`).

Where no target selects such a field, every target that is left can be assigned to
(`assignable_simplify`). -/

namespace Devirt

open Walk

/-- What the language admits on the left of an assignment. -/
def Expr.isAssignable : Expr → Bool
  | .name _ | .member _ _ | .index _ _ => true
  | _ => false

/-- The expressions that a statement assigns to. -/
def Stmt.targets : Stmt → List Expr
  | .assign _ targets _ => targets
  | _ => []

/-- What the key stands for is a number, or a selection of a key that ends in a number. -/
inductive Indirection.EndsInNumber (paths : Paths) : String → Prop where
  | number {key : String} {path : List String} {n : Int} : paths.get? key = some path →
      integer? (path.headD "") = some n → EndsInNumber paths key
  | leads {key key' : String} : Leads paths key key' → EndsInNumber paths key' →
      EndsInNumber paths key

/-- A target that can be assigned to, and is no selection that comes to a number. -/
structure LastingTarget (paths : Option Paths) (t : Expr) : Prop where
  assignable : t.isAssignable = true
  field : ∀ o f, t = .member o f → ∀ m ∈ paths, ¬ Indirection.EndsInNumber m f

/-- Replacements in a statement are made by its hook, in one of its targets, or in none of them. -/
theorem StmtStep.cases_targets {p : Pass} {s s' : Stmt} (h : StmtStep p s s') :
    p.onStmt s = some s' ∨ ListStep (ExprStep p) s.targets s'.targets ∨ s'.targets = s.targets := by
  cases h with
  | hook h => exact .inl h
  | assignTargets h => exact .inr (.inl h)
  | _ => exact .inr (.inr rfl)

section

variable {p : Pass} {paths : Option Paths}

/-- Below a target nothing is replaced that decides whether it can be assigned to. -/
theorem LastingTarget.of_step
    (hhook : ∀ t t', p.onExpr t = some t' → LastingTarget paths t → LastingTarget paths t')
    {t t' : Expr} (hstep : ExprStep p t t') (h : LastingTarget paths t) : LastingTarget paths t' := by
  cases hstep with
  | hook hstep => exact hhook _ _ hstep h
  | member hstep =>
      refine ⟨rfl, fun o f heq => ?_⟩
      cases heq
      exact h.field _ _ rfl
  | indexTable hstep | indexKey hstep => exact ⟨rfl, fun o f heq => by contradiction⟩
  | _ =>
      have := h.assignable
      contradiction

/-- A pass whose hooks keep targets keeps those of all statements. -/
theorem maintains_targets
    (hhook : ∀ t t', p.onExpr t = some t' → LastingTarget paths t → LastingTarget paths t')
    (hstmt : ∀ s s', p.onStmt s = some s' → s'.targets ⊆ s.targets)
    (hexpr : ∀ P e e', p.onExpr e = some e' → (Slot.expr e).EveryStmt P → (Slot.expr e').EveryStmt P)
    (hslots : ∀ P s s', p.onStmt s = some s' → (∀ t ∈ stmtSlots s, t.EveryStmt P) →
      ∀ t ∈ stmtSlots s', t.EveryStmt P)
    (hblock : ∀ b b', p.block b = some b' → b' ⊆ b) :
    p.Maintains fun s => ∀ t ∈ s.targets, LastingTarget paths t where
  onExpr := hexpr _
  onStmt := hslots _
  block := hblock
  step s s' hstep h := by
    rcases hstep.cases_targets with hanswer | htargets | htargets
    · exact fun t ht => h t (hstmt s s' hanswer ht)
    · exact htargets.forall_mem (fun t _ t' => LastingTarget.of_step hhook) h
    · rw [htargets]
      exact h

end

/-! ## The three stages -/

theorem Folding.maintains_targets (paths : Option Paths) :
    pass.Maintains fun s => ∀ t ∈ s.targets, LastingTarget paths t := by
  refine Devirt.maintains_targets ?_ ?_ ?_ ?_ (fun b b' h => by contradiction)
  · intro t t' h ht
    have hassignable := ht.assignable
    cases foldsTo_of_onExpr h <;> contradiction
  · intro s s' h
    rw [onStmt_eq_none] at h
    contradiction
  · intro P e e' h he
    rw [everyStmt_expr] at he ⊢
    cases foldsTo_of_onExpr h with
    | negation x | length hall => simp [exprSlots]
    | comparison hop hr =>
        simp only [exprSlots, List.forall_mem_cons] at he ⊢
        exact ⟨he.2.1, he.1, by simp⟩
  · intro P s s' h
    rw [onStmt_eq_none] at h
    contradiction

/-- What stands for a field that does not come to a number is a name, or a selection of such a field. -/
theorem Indirection.lastingTarget_of_answer {paths : Paths} {o e : Expr} {f : String}
    (h : member paths o f = some e) (hf : ¬ EndsInNumber paths f) : LastingTarget (some paths) e := by
  obtain ⟨path, hpath, htarget, -⟩ := member_eq_some h
  rcases target_eq_some htarget with ⟨n, hn, -⟩ | ⟨-, hpathOf⟩
  · -- the case that is excluded: a number would take the place of the target
    exact absurd (.number hpath hn) hf
  · cases e with
    | name n => exact ⟨rfl, fun o f heq => by contradiction⟩
    | member o' f' =>
        refine ⟨rfl, fun o₁ f₁ heq m hm hends => hf ?_⟩
        cases heq
        cases hm
        by_cases hself : f' = f
        · rwa [hself] at hends
        · exact .leads ⟨hself, path, o', hpath, htarget⟩ hends
    | _ => contradiction

theorem Indirection.maintains_targets (paths : Paths) :
    (pass paths).Maintains fun s => ∀ t ∈ s.targets, LastingTarget (some paths) t := by
  refine Devirt.maintains_targets ?_ ?_ ?_ ?_ (fun b b' h => by contradiction)
  · intro t t' h ht
    cases t with
    | member o f => exact lastingTarget_of_answer h (ht.field o f rfl paths rfl)
    | _ => contradiction
  · intro s s' h
    rw [onStmt_eq_none] at h
    contradiction
  · intro P e e' h _
    cases e with
    | member o f =>
        obtain ⟨path, -, htarget, -⟩ := member_eq_some h
        refine everyStmt_of_blocks _ ?_
        rcases target_eq_some htarget with ⟨n, -, rfl⟩ | ⟨-, hpathOf⟩
        · rfl
        · exact exprBlocks_of_pathOf? hpathOf
    | _ => contradiction
  · intro P s s' h
    rw [onStmt_eq_none] at h
    contradiction

namespace Temporaries.Context

variable {c : Context} {P : Stmt → Prop}

/-- What stands for a temporary contains no statement. -/
theorem everyStmt_substitutePair {l r : Expr} {a : Expr × Expr} (h : c.substitutePair l r = some a)
    (hl : (Slot.expr l).EveryStmt P) (hr : (Slot.expr r).EveryStmt P) :
    (Slot.expr a.1).EveryStmt P ∧ (Slot.expr a.2).EveryStmt P := by
  obtain ⟨h₁, h₂⟩ := substitutePair_eq_some h
  constructor
  · rcases h₁ with h₁ | h₁
    · rwa [h₁]
    · exact everyStmt_of_blocks _ (blocks_substitute h₁)
  · rcases h₂ with h₂ | h₂
    · rwa [h₂]
    · exact everyStmt_of_blocks _ (blocks_substitute h₂)

theorem everyStmt_onExpr {e e' : Expr} (h : c.pass.onExpr e = some e')
    (he : (Slot.expr e).EveryStmt P) : (Slot.expr e').EveryStmt P := by
  rw [everyStmt_expr] at he ⊢
  obtain ⟨l, r, a, ha, ⟨op, rfl, rfl⟩ | ⟨rfl, rfl⟩ | ⟨f, rfl, rfl⟩⟩ := onExpr_eq_some h
  all_goals simp only [exprSlots, List.map_cons, List.map_nil, List.forall_mem_cons] at he ⊢
  · obtain ⟨hl, hr⟩ := everyStmt_substitutePair ha he.1 he.2.1
    exact ⟨hl, hr, by simp⟩
  · obtain ⟨hl, hr⟩ := everyStmt_substitutePair ha he.1 he.2.1
    exact ⟨hl, hr, by simp⟩
  · obtain ⟨hl, hr⟩ := everyStmt_substitutePair ha he.2.1 he.2.2.1
    exact ⟨he.1, hl, hr, by simp⟩

theorem everyStmt_onStmt {s s' : Stmt} (h : c.pass.onStmt s = some s')
    (hs : ∀ t ∈ stmtSlots s, t.EveryStmt P) : ∀ t ∈ stmtSlots s', t.EveryStmt P := by
  cases s with
  | assign id targets values =>
      rcases assign_eq_some h with ⟨-, rfl⟩ | ⟨t, v, v', rfl, rfl, hv, rfl⟩
      · simp only [stmtSlots, List.forall_mem_append] at hs ⊢
        exact hs.2
      · simp only [stmtSlots, List.forall_mem_append, List.map_cons, List.map_nil,
          List.forall_mem_singleton] at hs ⊢
        exact ⟨hs.1, everyStmt_of_blocks _ (blocks_substitute hv)⟩
  | call f args =>
      obtain ⟨a, ha, rfl⟩ := Option.map_eq_some_iff.mp h
      obtain ⟨l, r, q, rfl, hq, rfl⟩ := call_eq_some ha
      simp only [stmtSlots, List.map_cons, List.map_nil, List.forall_mem_cons] at hs ⊢
      obtain ⟨hl, hr⟩ := everyStmt_substitutePair hq hs.2.1 hs.2.2.1
      exact ⟨hs.1, hl, hr, by simp⟩
  | _ => contradiction

theorem maintains_targets (paths : Option Paths) :
    c.pass.Maintains fun s => ∀ t ∈ s.targets, LastingTarget paths t := by
  refine Devirt.maintains_targets ?_ ?_ (fun P e e' => everyStmt_onExpr)
    (fun P s s' => everyStmt_onStmt) ?_
  · intro t t' h ht
    have hassignable := ht.assignable
    obtain ⟨l, r, a, -, ⟨op, rfl, rfl⟩ | ⟨rfl, rfl⟩ | ⟨f, rfl, rfl⟩⟩ := onExpr_eq_some h
    · contradiction
    · exact ⟨rfl, fun o f heq => by contradiction⟩
    · contradiction
  · intro s s' h
    cases s with
    | assign id targets values =>
        rcases assign_eq_some h with ⟨-, rfl⟩ | ⟨t, v, v', rfl, rfl, -, rfl⟩
        · exact List.nil_subset _
        · exact List.Subset.refl _
    | call f args =>
        obtain ⟨a, -, rfl⟩ := Option.map_eq_some_iff.mp h
        exact List.nil_subset _
    | _ => contradiction
  · intro b b' h
    rw [block_eq_some h]
    exact List.filter_sublist.subset

end Temporaries.Context

/-! ## The pipeline -/

/-- If every target can be assigned to, and none selects a field that the mapping brings to a number, then
every target in the block that the pipeline leaves can be assigned to.  The blocks within statements, and
the bodies of functions within expressions, are covered. -/
theorem assignable_simplify (options : Options) (paths : Option Paths) (b : Block)
    (htargets : (Slot.block b).EveryStmt fun s => ∀ t ∈ s.targets, t.isAssignable = true)
    (hfields : (Slot.block b).EveryStmt fun s => ∀ o f, .member o f ∈ s.targets →
      ∀ m ∈ paths, ¬ Indirection.EndsInNumber m f) :
    (Slot.block (b.simplify options paths).1).EveryStmt fun s =>
      ∀ t ∈ s.targets, t.isAssignable = true := by
  have hstart : (Slot.block b).EveryStmt fun s => ∀ t ∈ s.targets, LastingTarget paths t := by
    intro c hc s hs t ht
    refine ⟨htargets c hc s hs t ht, fun o f heq => ?_⟩
    subst heq
    exact hfields c hc s hs o f ht
  have hend : (Slot.block (b.simplify options paths).1).EveryStmt fun s =>
      ∀ t ∈ s.targets, LastingTarget paths t := by
    refine (Pipeline.standard options paths).run_preserves
      (P := fun b => (Slot.block b).EveryStmt fun s => ∀ t ∈ s.targets, LastingTarget paths t)
      (fun r hr b hb => ?_) hstart
    simp only [Pipeline.standard, List.mem_cons, List.mem_append, List.mem_map, Option.mem_toList,
      List.not_mem_nil, or_false] at hr
    obtain rfl | ⟨m, rfl, rfl⟩ | rfl := hr
    · exact (Folding.maintains_targets paths).walk hb
    · exact (Indirection.maintains_targets m).walk hb
    · exact (Temporaries.Context.maintains_targets paths).walk hb
  exact hend.imp fun s hs t ht => (hs t ht).assignable

/-- `FOO` stands for a path and `BAR` for a number. -/
def pathAndNumber : Paths := ⟨[("FOO", ["a", "b"]), ("BAR", ["7"])]⟩

theorem Indirection.not_endsInNumber_pathAndNumber : ¬ EndsInNumber pathAndNumber "FOO" := by
  have hFOO : pathAndNumber.get? "FOO" = some ["a", "b"] := by rfl
  have hb : ∀ path, pathAndNumber.get? "b" ≠ some path :=
    Option.eq_none_iff_forall_ne_some.mp (by rfl)
  intro h
  cases h with
  | number hpath hn =>
      cases hFOO.symm.trans hpath
      contradiction
  | leads hleads hends =>
      obtain ⟨-, path, o, hpath, htarget⟩ := hleads
      cases hFOO.symm.trans hpath
      have hab : target ["a", "b"] = some (.member (.name "a") "b") := by rfl
      cases hab.symm.trans htarget
      -- nothing stands for `b`
      cases hends with
      | number hpath _ => exact hb _ hpath
      | leads hleads _ =>
          obtain ⟨-, path, -, hpath, -⟩ := hleads
          exact hb _ hpath

/-- `x.FOO, y = x.BAR, function() t[x.BAR] = z end` becomes `a.b, y = 7, function() t[7] = z end`. -/
theorem assignable_simplify_path :
    let b : Block := [.assign 1 [.member (.name "x") "FOO", .name "y"]
      [.member (.name "x") "BAR",
        .function [] false [.assign 2 [.index (.name "t") (.member (.name "x") "BAR")] [.name "z"]]]]
    ((Slot.block b).EveryStmt fun s => ∀ t ∈ s.targets, t.isAssignable = true) ∧
      ((Slot.block b).EveryStmt fun s => ∀ o f, .member o f ∈ s.targets →
        ∀ m ∈ some pathAndNumber, ¬ Indirection.EndsInNumber m f) ∧
      (Slot.block (b.simplify .standard (some pathAndNumber)).1).EveryStmt fun s =>
        ∀ t ∈ s.targets, t.isAssignable = true := by
  intro b
  have htargets : (Slot.block b).EveryStmt fun s => ∀ t ∈ s.targets, t.isAssignable = true := by
    simp [b, everyStmt_block, everyStmt_expr, stmtSlots, exprSlots, Stmt.targets, Expr.isAssignable]
  have hfields : (Slot.block b).EveryStmt fun s => ∀ o f, .member o f ∈ s.targets →
      ∀ m ∈ some pathAndNumber, ¬ Indirection.EndsInNumber m f := by
    simp [b, everyStmt_block, everyStmt_expr, stmtSlots, exprSlots, Stmt.targets,
      Indirection.not_endsInNumber_pathAndNumber]
  exact ⟨htargets, hfields, assignable_simplify .standard (some pathAndNumber) b htargets hfields⟩

/-- Without the second condition targets may be lost: `x.BAR = 1` becomes `7 = 1`. -/
theorem not_assignable_simplify :
    ¬ ∀ (options : Options) (paths : Option Paths) (b : Block),
      ((Slot.block b).EveryStmt fun s => ∀ t ∈ s.targets, t.isAssignable = true) →
        (Slot.block (b.simplify options paths).1).EveryStmt fun s =>
          ∀ t ∈ s.targets, t.isAssignable = true := by
  intro h
  let b : Block := [.assign 1 [.member (.name "x") "BAR"] [.number (Double.ofNat 1)]]
  have htargets : (Slot.block b).EveryStmt fun s => ∀ t ∈ s.targets, t.isAssignable = true := by
    simp [b, everyStmt_block, everyStmt_expr, stmtSlots, exprSlots, Stmt.targets, Expr.isAssignable]
  have hend := h .standard (some pathAndNumber) b htargets _ (.refl _)
  have hlost : ∃ s ∈ (b.simplify .standard (some pathAndNumber)).1, ∃ t ∈ s.targets,
      t.isAssignable = false := by
    decide +kernel
  obtain ⟨s, hs, t, ht, hlost⟩ := hlost
  rw [hend s hs t ht] at hlost
  contradiction

end Devirt
