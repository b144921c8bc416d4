import Devirt.Proofs.MappedPaths

set_option autoImplicit false

/-! # What a mapping makes of a tree

`Grafted given t t'` says that `t'` is `t` but for some slots, none inside another, that held selections
of keys and now hold what stands for a key.  One replacement keeps this (`grafted_step`): made below what
was put in before it would have to replace a field that is no key, and made above it takes the whole of
it away with the object of the selection.  So however often a mapping is walked over a tree, nothing that
it puts in is ever put into something else that it has put in, and the tree grows by no more than one path
(`grafted_walks`). -/

namespace Devirt

namespace Indirection

open Walk

/-- The second slot is the first, but that some selections of keys are replaced by what stands for a
key. -/
inductive Grafted (given : Paths) : Slot → Slot → Prop where
  | graft {o e : Expr} {f : String} : given.contains f = true → Stands given e →
      Grafted given (.expr (.member o f)) (.expr e)
  | expr {e e' : Expr} : e'.shell = e.shell →
      List.Forall₂ (Grafted given) (exprSlots e) (exprSlots e') → Grafted given (.expr e) (.expr e')
  | block {b b' : Block} : List.Forall₂ (fun s s' : Stmt => s'.shell = s.shell) b b' →
      List.Forall₂ (Grafted given) (b.flatMap stmtSlots) (b'.flatMap stmtSlots) →
      Grafted given (.block b) (.block b')

/-- How many segments the longest path has. -/
def longest (given : Paths) : Nat := (given.entries.map fun p => p.2.length).foldr max 0

theorem length_le_longest {given : Paths} {key : String} {path : List String}
    (h : (key, path) ∈ given.entries) : path.length ≤ longest given :=
  List.le_max_of_le' 0 (List.mem_map.mpr ⟨(key, path), h, rfl⟩) le_rfl

/-! ## Steps -/

/-- A relation between lists that a step of an item keeps for the item, a step of the list keeps. -/
theorem forall₂_step {α β : Type} {R : α → β → Prop} {S : β → β → Prop} {xs : List α} {ys zs : List β}
    (h : List.Forall₂ R xs ys) (hstep : ListStep S ys zs)
    (hkeeps : ∀ x ∈ xs, ∀ y z, R x y → S y z → R x z) : List.Forall₂ R xs zs := by
  induction hstep generalizing xs with
  | head hyz =>
      cases h with
      | cons hx hxs => exact .cons (hkeeps _ List.mem_cons_self _ _ hx hyz) hxs
  | tail _ ih =>
      cases h with
      | cons hx hxs => exact .cons hx (ih hxs fun x hx => hkeeps x (List.mem_cons_of_mem _ hx))

variable {given : Paths}

/-- Every tree is itself, with nothing replaced. -/
theorem grafted_refl (t : Slot) : Grafted given t t := by
  induction t using Slot.induction with
  | expr e ih => exact .expr rfl (List.forall₂_same.mpr ih)
  | block b ih =>
      refine .block (List.forall₂_same.mpr fun _ _ => rfl) (List.forall₂_same.mpr fun t ht => ?_)
      obtain ⟨s, hs, hts⟩ := List.mem_flatMap.mp ht
      exact ih s hs t hts

/-- A replacement in a statement is made in one of its slots. -/
theorem stmt_step {s s' : Stmt} (h : StmtStep (pass (usable given)) s s') :
    s'.shell = s.shell ∧
      ListStep (SlotStep (pass (usable given))) (stmtSlots s) (stmtSlots s') := by
  rcases h.cases_slots with h | h
  · cases s <;> contradiction
  · exact h

/-- One more replacement keeps what was put in apart. -/
theorem grafted_step {t t' t'' : Slot} (h : Grafted given t t')
    (hstep : SlotStep (pass (usable given)) t' t'') : Grafted given t t'' := by
  induction t using Slot.induction generalizing t' t'' with
  | expr e ih =>
      cases h with
      | graft hf he' =>
          cases hstep with
          | expr hstep =>
              obtain ⟨-, -, -, -, hstands⟩ := onExpr_eq_some (he'.onExpr_of_step hstep)
              exact .graft hf hstands
      | expr hshell hslots =>
          cases hstep with
          | expr hstep =>
              rcases hstep.cases_slots with hhook | ⟨hshell', hslots'⟩
              · obtain ⟨o', f, rfl, hf, hstands⟩ := onExpr_eq_some hhook
                obtain ⟨o, rfl⟩ := Expr.eq_member_of_shell hshell
                exact .graft hf hstands
              · exact .expr (hshell'.trans hshell)
                  (forall₂_step hslots hslots' fun t ht _ _ h h' => ih t ht h h')
  | block b ih =>
      cases h with
      | block hshells hslots =>
          cases hstep with
          | block hstep =>
              cases hstep with
              | hook hhook => contradiction
              | items hitems =>
                  refine .block
                    (forall₂_step hshells hitems fun _ _ _ _ h h' => (stmt_step h').1.trans h)
                    (forall₂_step hslots (hitems.flatMap stmtSlots fun _ _ h => (stmt_step h).2) ?_)
                  intro t ht _ _ h h'
                  obtain ⟨s, hs, hts⟩ := List.mem_flatMap.mp ht
                  exact ih s hs t hts h h'

/-! ## Levels -/

theorem levels_of_stands {e : Expr} (h : Stands given e) : exprLevels e ≤ longest given + 1 := by
  cases h with
  | number _ _ => exact Nat.le_add_left ..
  | path hmem hpath _ =>
      rw [exprLevels_of_pathOf? hpath]
      exact (length_le_longest hmem).trans (Nat.le_succ _)

/-- A bound for the slots of one list is one for the slots of the other, `k` more. -/
theorem forall_levels_le {k n : Nat} {ts ts' : List Slot} {R : Slot → Slot → Prop}
    (h : List.Forall₂ R ts ts') (hR : ∀ t ∈ ts, ∀ t', R t t' → t'.levels ≤ t.levels + k)
    (hle : ∀ t ∈ ts, t.levels ≤ n) : ∀ t' ∈ ts', t'.levels ≤ n + k := by
  induction h with
  | nil => simp
  | @cons t t' ts ts' ht _ ih =>
      rw [List.forall_mem_cons] at hR hle ⊢
      exact ⟨(hR.1 t' ht).trans (Nat.add_le_add_right hle.1 k), ih hR.2 hle.2⟩

/-- What was put in nests no deeper than the longest path, and nothing is put into it. -/
theorem levels_of_grafted {t t' : Slot} (h : Grafted given t t') :
    t'.levels ≤ t.levels + longest given := by
  induction t using Slot.induction generalizing t' with
  | expr e ih =>
      have hpos := exprLevels_pos e
      cases h with
      | graft _ he' =>
          have := levels_of_stands he'
          simp only [Slot.levels]
          omega
      | @expr _ e' _ hslots =>
          have hlevels : exprLevels e ≤ exprLevels e - 1 + 1 := by omega
          have hbelow := forall_levels_le hslots (fun t ht _ h => ih t ht h)
            ((exprLevels_le e).mp hlevels)
          have := (exprLevels_le e').mpr hbelow
          simp only [Slot.levels]
          omega
  | block b ih =>
      cases h with
      | @block _ b' _ hslots =>
          have hbelow : ∀ t' ∈ b'.flatMap stmtSlots, t'.levels ≤ stmtsLevels b + longest given := by
            refine forall_levels_le hslots (fun t ht _ h => ?_) fun t ht => ?_
            · obtain ⟨s, hs, hts⟩ := List.mem_flatMap.mp ht
              exact ih s hs t hts h
            · obtain ⟨s, hs, hts⟩ := List.mem_flatMap.mp ht
              exact (stmtLevels_le s).mp ((stmtsLevels_le b).mp le_rfl s hs) t hts
          rw [Slot.levels, Slot.levels, stmtsLevels_le]
          intro s hs
          rw [stmtLevels_le]
          exact fun t ht => hbelow t (List.mem_flatMap.mpr ⟨s, hs, ht⟩)

/-! ## Walks -/

theorem grafted_walk {b b' : Block} (h : Grafted given (.block b) (.block b')) :
    Grafted given (.block b) (.block ((stage (usable given)).run b').1) :=
  (pass (usable given)).walk_preserves (P := fun b' => Grafted given (.block b) (.block b'))
    (fun _ _ hstep h => grafted_step h (.block hstep)) h

/-- However often the mapping is walked over a block, the block stays as it was but for selections of
keys, of which none lies inside another, and each of which is now a number or the path of one key, no
field of which is a key but for the outermost.  So its expressions nest deeper by no more than the longest
path. -/
theorem grafted_walks (given : Paths) (b : Block) (n : Nat) :
    Grafted given (.block b) (.block ((fun b => ((stage (usable given)).run b).1)^[n] b)) ∧
      Block.levels ((fun b => ((stage (usable given)).run b).1)^[n] b) ≤ b.levels + longest given := by
  have h : Grafted given (.block b) (.block ((fun b => ((stage (usable given)).run b).1)^[n] b)) := by
    induction n with
    | zero => exact grafted_refl _
    | succ n ih =>
        rw [Function.iterate_succ_apply']
        exact grafted_walk ih
  exact ⟨h, levels_of_grafted h⟩

end Indirection

end Devirt
