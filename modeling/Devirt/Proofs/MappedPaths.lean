import Devirt.Pass.Indirection
import Devirt.Proofs.AtRest

set_option autoImplicit false

/-! # What a mapping puts into a tree

What stands for a key is a number, or a path: a name and selections below it (`Stands`).  The mapping that
is put to use has no key whose path would be entered again, so no field below the outermost of such a path
is a key, and nothing below its outermost selection is ever replaced (`onExpr_of_step`).  The outermost
selection itself may be replaced again, by what stands for its field. -/

namespace Devirt

namespace Dict

variable {κ υ : Type} [DecidableEq κ]

theorem mem_of_find {k : κ} {v : υ} {l : List (κ × υ)} (h : find k l = some v) : (k, v) ∈ l := by
  induction l with
  | nil => contradiction
  | cons p l ih =>
      obtain ⟨k', v'⟩ := p
      rw [find] at h
      split at h
      · rename_i hk
        cases h
        rw [hk]
        exact List.mem_cons_self
      · exact List.mem_cons_of_mem _ (ih h)

theorem isSome_find_of_mem {k : κ} {v : υ} {l : List (κ × υ)} (h : (k, v) ∈ l) :
    (find k l).isSome = true := by
  induction l with
  | nil => contradiction
  | cons p l ih =>
      obtain ⟨k', v'⟩ := p
      rw [find]
      split
      · rfl
      · rename_i hk
        rcases List.mem_cons.mp h with heq | h
        · cases heq
          exact absurd rfl hk
        · exact ih h

end Dict

namespace Indirection

open Walk

/-! ## The mapping that is put to use -/

/-- A key in use is a key of the mapping, with a path that does not enter it again. -/
theorem of_get?_usable {given : Paths} {key : String} {path : List String}
    (h : (usable given).get? key = some path) :
    (key, path) ∈ given.entries ∧ ∀ seg ∈ inner path, given.contains seg = false := by
  obtain ⟨hmem, hkeep⟩ := List.mem_filter.mp (Dict.mem_of_find h)
  refine ⟨hmem, ?_⟩
  simpa [reenters] using hkeep

/-- What is no key of the mapping is no key in use. -/
theorem get?_usable_eq_none {given : Paths} {key : String} (h : given.contains key = false) :
    (usable given).get? key = none := by
  by_contra hc
  obtain ⟨path, hpath⟩ := Option.ne_none_iff_exists'.mp hc
  have hsome : given.contains key = true := Dict.isSome_find_of_mem (of_get?_usable hpath).1
  rw [h] at hsome
  contradiction

/-! ## Paths and the selections that follow them -/

theorem pathOf?_select {e : Expr} {path : List String} (h : pathOf? e = some path)
    (segs : List String) : pathOf? (select e segs) = some (path ++ segs) := by
  induction segs generalizing e path with
  | nil => rw [select, h, List.append_nil]
  | cons seg segs ih =>
      have hstep : pathOf? (.member e seg) = some (path ++ [seg]) := by rw [pathOf?, h, Option.map_some]
      rw [select, ih hstep, List.append_assoc, List.singleton_append]

theorem pathOf?_ne_nil {e : Expr} {path : List String} (h : pathOf? e = some path) : path ≠ [] := by
  cases e with
  | name n => cases h; simp
  | member o f =>
      obtain ⟨q, -, rfl⟩ := Option.map_eq_some_iff.mp h
      simp
  | _ => contradiction

/-- The path of a selection is that of its object with the field at the end. -/
theorem pathOf?_member {o : Expr} {f : String} {path : List String}
    (h : pathOf? (.member o f) = some path) : ∃ q, pathOf? o = some q ∧ path = q ++ [f] := by
  obtain ⟨q, hq, rfl⟩ := Option.map_eq_some_iff.mp h
  exact ⟨q, hq, rfl⟩

theorem inner_append_singleton {q : List String} (hq : q ≠ []) (f : String) :
    inner (q ++ [f]) = q.tail := by
  rw [inner, List.tail_append_of_ne_nil hq, List.dropLast_concat]

/-- A path has a level for each of its segments. -/
theorem exprLevels_of_pathOf? {e : Expr} {path : List String} (h : pathOf? e = some path) :
    exprLevels e = path.length := by
  induction e using pathOf?.induct generalizing path with
  | case1 n => cases h; rfl
  | case2 o f ih =>
      obtain ⟨q, hq, rfl⟩ := pathOf?_member h
      rw [exprLevels, ih hq, List.length_append, List.length_singleton]
  | case3 e hname hmember => rw [pathOf?] at h <;> simp_all

theorem exprBlocks_of_pathOf? {e : Expr} {path : List String} (h : pathOf? e = some path) :
    exprBlocks e = 0 := by
  induction e using pathOf?.induct generalizing path with
  | case1 n => rfl
  | case2 o f ih =>
      obtain ⟨q, hq, -⟩ := pathOf?_member h
      exact ih hq
  | case3 e hname hmember => rw [pathOf?] at h <;> simp_all

/-- A key stands for a number, or for the path that it is mapped to. -/
theorem target_eq_some {path : List String} {e : Expr} (h : target path = some e) :
    (∃ n, integer? (path.headD "") = some n ∧ e = .number (Double.ofInt n)) ∨
      integer? (path.headD "") = none ∧ pathOf? e = some path := by
  cases path with
  | nil => contradiction
  | cons first rest =>
      rw [target] at h
      split at h
      · rename_i n hn
        cases h
        exact .inl ⟨n, hn, rfl⟩
      · rename_i hn
        cases h
        have hroot : pathOf? (.name first) = some [first] := rfl
        exact .inr ⟨hn, pathOf?_select hroot rest⟩

/-- The pass answers for selections of keys only, and never with the selection itself. -/
theorem member_eq_some {paths : Paths} {o e : Expr} {f : String} (h : member paths o f = some e) :
    ∃ path, paths.get? f = some path ∧ target path = some e ∧
      (integer? (path.headD "") = none → pathOf? (.member o f) ≠ some path) := by
  unfold member at h
  split at h
  · contradiction
  · rename_i path hpath
    refine ⟨path, hpath, ?_⟩
    split at h
    · rename_i here hint hhere
      split at h
      · contradiction
      · rename_i hne
        exact ⟨h, fun _ hpathOf => hne (Option.some.inj (hhere.symm.trans hpathOf))⟩
    · rename_i hother
      exact ⟨h, fun hint hpathOf => hother path hint hpathOf⟩

theorem member_of_target {paths : Paths} {o e : Expr} {f : String} {path : List String}
    (hpath : paths.get? f = some path) (htarget : target path = some e)
    (hself : integer? (path.headD "") = none → pathOf? (.member o f) ≠ some path) :
    member paths o f = some e := by
  unfold member
  rw [hpath]
  simp only
  split
  · rename_i here hint hhere
    have hne : here ≠ path := by
      rintro rfl
      exact hself hint hhere
    rw [if_neg hne, htarget]
  · exact htarget

/-! ## What stands for a key -/

/-- What stands for a key: a number, or the path of the key, no field of which is a key but for the
outermost. -/
inductive Stands (given : Paths) : Expr → Prop where
  | number {key : String} {path : List String} {n : Int} : (key, path) ∈ given.entries →
      integer? (path.headD "") = some n → Stands given (.number (Double.ofInt n))
  | path {key : String} {path : List String} {e : Expr} : (key, path) ∈ given.entries →
      pathOf? e = some path → (∀ seg ∈ inner path, given.contains seg = false) → Stands given e

variable {given : Paths}

/-- The pass answers for selections of keys, with what stands for the key. -/
theorem onExpr_eq_some {e e' : Expr} (h : (pass (usable given)).onExpr e = some e') :
    ∃ o f, e = .member o f ∧ given.contains f = true ∧ Stands given e' := by
  cases e with
  | member o f =>
      obtain ⟨path, hpath, htarget, -⟩ := member_eq_some h
      obtain ⟨hmem, hinner⟩ := of_get?_usable hpath
      refine ⟨o, f, rfl, Dict.isSome_find_of_mem hmem, ?_⟩
      rcases target_eq_some htarget with ⟨n, hn, rfl⟩ | ⟨-, hpathOf⟩
      · exact .number hmem hn
      · exact .path hmem hpathOf hinner
  | _ => contradiction

/-- A path of fields that are no keys is at rest. -/
theorem atRest_of_path {e : Expr} {path : List String} (h : pathOf? e = some path)
    (hfields : ∀ seg ∈ path.tail, given.contains seg = false) :
    AtRest (pass (usable given)) (.expr e) := by
  induction e using pathOf?.induct generalizing path with
  | case1 n => exact .expr rfl (by simp [exprSlots])
  | case2 o f ih =>
      obtain ⟨q, hq, rfl⟩ := pathOf?_member h
      rw [List.tail_append_of_ne_nil (pathOf?_ne_nil hq), List.forall_mem_append,
        List.forall_mem_singleton] at hfields
      have hhook : member (usable given) o f = none := by
        rw [member, get?_usable_eq_none hfields.2]
      refine .expr hhook ?_
      rw [exprSlots, List.forall_mem_singleton]
      exact ih hq hfields.1
  | case3 e hname hmember => rw [pathOf?] at h <;> simp_all

/-- The object of a selection that stands for a key is at rest. -/
theorem Stands.atRest_object {o : Expr} {f : String} (h : Stands given (.member o f)) :
    AtRest (pass (usable given)) (.expr o) := by
  cases h with
  | path _ hpath hinner =>
      obtain ⟨q, hq, rfl⟩ := pathOf?_member hpath
      rw [inner_append_singleton (pathOf?_ne_nil hq)] at hinner
      exact atRest_of_path hq hinner

/-- In what stands for a key only the outermost selection can be replaced. -/
theorem Stands.onExpr_of_step {e e' : Expr} (h : Stands given e)
    (hstep : ExprStep (pass (usable given)) e e') : (pass (usable given)).onExpr e = some e' := by
  cases hstep with
  | hook hstep => exact hstep
  | member hstep => exact absurd (.expr hstep) h.atRest_object.not_step
  | _ =>
      cases h with
      | path _ hpath _ => contradiction

end Indirection

end Devirt
