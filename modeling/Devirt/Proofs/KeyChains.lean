import Devirt.Proofs.Grafts
import Devirt.Proofs.SmoothWalks

set_option autoImplicit false

/-! # Chains of keys

What stands for a key may be a selection of another key, and is then replaced in turn: a key *leads* to
the next (`Leads`).  A slot follows such a chain.  If no key leads back to itself, a chain passes each key
once, so that fewer than `maxRounds` keys never use up the rounds of a slot (`smooth_settle_stands`), and
one walk leaves the tree at rest.  If some key leads back to itself, a selection of it is replaced over
and over and never comes to rest (`onCycle_step`).  So one walk settles every tree exactly if no key leads
back to itself (`settles_iff`). -/

namespace Devirt

namespace Indirection

open Walk Walk.Progress

/-- What the key stands for is a selection of another key. -/
def Leads (paths : Paths) (key key' : String) : Prop :=
  key' ≠ key ∧ ∃ path o, paths.get? key = some path ∧ target path = some (.member o key')

variable {given : Paths}

/-- What stands for a key is replaced in turn only if the key leads on. -/
theorem leads_of_answers {paths : Paths} {o e e' : Expr} {f : String} (h : member paths o f = some e)
    (h' : (pass paths).onExpr e = some e') : ∃ o' f', e = .member o' f' ∧ Leads paths f f' := by
  obtain ⟨path, hpath, htarget, -⟩ := member_eq_some h
  cases e with
  | member o' f' =>
      obtain ⟨path', hpath', -, hself⟩ := member_eq_some h'
      refine ⟨o', f', rfl, ?_, path, o', hpath, htarget⟩
      -- a selection that stands for its own field is the answer itself
      rintro rfl
      rw [hpath] at hpath'
      cases hpath'
      rcases target_eq_some htarget with ⟨n, -, hnumber⟩ | ⟨hint, hpathOf⟩
      · contradiction
      · exact hself hint hpathOf
  | _ => contradiction

theorem mem_keys_of_get? {paths : Paths} {key : String} {path : List String}
    (h : paths.get? key = some path) : key ∈ paths.keys :=
  List.mem_map.mpr ⟨(key, path), Dict.mem_of_find h, rfl⟩

theorem onStmt_eq_none (paths : Paths) (s : Stmt) : (pass paths).onStmt s = none := by
  cases s <;> rfl

theorem block_eq_none (paths : Paths) (b : Block) : (pass paths).block b = none := rfl

/-- What stands for a key is at rest below its outermost selection. -/
theorem Stands.slots {e : Expr} (h : Stands given e) : ∀ t ∈ exprSlots e,
    AtRest (pass (usable given)) t ∧ t.blocks = 0 ∧ t.levels < longest given := by
  cases e with
  | member o f =>
      rw [exprSlots, List.forall_mem_singleton]
      refine ⟨h.atRest_object, ?_⟩
      cases h with
      | path hmem hpath _ =>
          obtain ⟨q, hq, rfl⟩ := pathOf?_member hpath
          have hlength := length_le_longest hmem
          rw [List.length_append, List.length_singleton] at hlength
          exact ⟨exprBlocks_of_pathOf? hq, by rw [Slot.levels, exprLevels_of_pathOf? hq]; omega⟩
  | number _ | name _ => simp [exprSlots]
  | _ =>
      cases h with
      | path _ hpath _ => contradiction

/-! ## Without a cycle -/

section

variable (hacyclic : ∀ key, ¬ Relation.TransGen (Leads (usable given)) key key)

include hacyclic

/-- A slot that holds what stands for a key comes to rest before every key was passed.  Those that were
passed are `visited`; they all lead to the key that is replaced next. -/
theorem smooth_settle_stands {visit : Expr → Progress → Expr × Progress}
    (hvisit : ∀ e, Stands given e → ∀ w, visit e w = (e, w)) {n : Nat} {visited : List String}
    {e : Expr} {w : Progress} (he : Stands given e) (hnodup : visited.Nodup)
    (hkeys : visited ⊆ (usable given).keys)
    (hlead : ∀ o f e', e = .member o f → (pass (usable given)).onExpr e = some e' →
      ∀ key ∈ visited, Relation.TransGen (Leads (usable given)) key f)
    (hrounds : (usable given).size < n + visited.length) (hw : w.halted = false) :
    Smooth w (settle visit (pass (usable given)).onExpr n e w).2 := by
  induction n generalizing visited e w with
  | zero =>
      have hle : visited.length ≤ (usable given).keys.length :=
        (List.subperm_of_subset hnodup hkeys).length_le
      rw [Dict.keys, List.length_map] at hle
      rw [Dict.size] at hrounds
      omega
  | succ n ih =>
      have hgoing : ¬ w.halted = true := by simpa using hw
      rw [settle, hvisit e he]
      simp only
      rw [if_neg hgoing]
      cases hhook : (pass (usable given)).onExpr e with
      | none => exact ⟨rfl, hw⟩
      | some e' =>
          obtain ⟨o, f, rfl, -, he'⟩ := onExpr_eq_some hhook
          have hpassed := hlead o f e' rfl hhook
          have hfresh : f ∉ visited := fun hf => hacyclic f (hpassed f hf)
          obtain ⟨path, hpath, -⟩ := member_eq_some hhook
          have hrest : Smooth w.replaced (settle visit (pass (usable given)).onExpr n e' w.replaced).2 := by
            refine ih he' (List.nodup_cons.mpr ⟨hfresh, hnodup⟩)
              (List.cons_subset.mpr ⟨mem_keys_of_get? hpath, hkeys⟩) ?_ ?_ hw
            · intro o₂ f₂ e₂ heq hhook₂
              obtain ⟨o', f', rfl, hleads⟩ := leads_of_answers hhook hhook₂
              cases heq
              rw [List.forall_mem_cons]
              exact ⟨.single hleads, fun key hkey => (hpassed key hkey).tail hleads⟩
            · rw [List.length_cons]
              omega
          exact ⟨hrest.capped, hrest.halted⟩

/-- An expression that leaves room for one path below it is settled smoothly, as soon as its slots
are. -/
theorem smooth_settle {visit : Expr → Progress → Expr × Progress} {e : Expr} {w : Progress}
    (hsize : (usable given).size < maxRounds) (he : Smooth w (visit e w).2)
    (hvisit : ∀ e, Stands given e → ∀ w, visit e w = (e, w)) :
    Smooth w (settle visit (pass (usable given)).onExpr maxRounds e w).2 := by
  rw [maxRounds, settle]
  generalize visit e w = r at he
  obtain ⟨e', w'⟩ := r
  have hgoing : ¬ w'.halted = true := by simpa using he.halted
  simp only
  rw [if_neg hgoing]
  cases hhook : (pass (usable given)).onExpr e' with
  | none => exact he
  | some z =>
      obtain ⟨o, f, rfl, -, hz⟩ := onExpr_eq_some hhook
      obtain ⟨path, hpath, -⟩ := member_eq_some hhook
      have hrest : Smooth w'.replaced
          (settle visit (pass (usable given)).onExpr 255 z w'.replaced).2 := by
        refine smooth_settle_stands hacyclic hvisit hz (List.nodup_singleton f)
          (List.cons_subset.mpr ⟨mem_keys_of_get? hpath, List.nil_subset _⟩) ?_ ?_ he.halted
        · intro o₂ f₂ e₂ heq hhook₂
          obtain ⟨o', f', rfl, hleads⟩ := leads_of_answers hhook hhook₂
          cases heq
          rw [List.forall_mem_singleton]
          exact .single hleads
        · simp only [maxRounds, List.length_singleton] at hsize ⊢
          omega
      exact he.trans ⟨hrest.capped, hrest.halted⟩

end

/-- One walk settles a block that leaves room for one path below it. -/
theorem smooth_of_acyclic (hacyclic : ∀ key, ¬ Relation.TransGen (Leads (usable given)) key key)
    (hsize : (usable given).size < maxRounds) {b : Block} (hlevels : b.levels + longest given ≤ maxDepth) :
    Smooth .start ((pass (usable given)).walk b).2 := by
  refine smooth_of_levels ⟨onStmt_eq_none _, block_eq_none _⟩
    (fun fuel n depth e w hfuel hblocks hdepth hw he => ?_) hlevels
  refine smooth_settle hacyclic hsize he fun z hz w => visitExpr_still fun t ht => ?_
  -- a path that was put in is short enough, and its object is at rest
  have hpos := exprLevels_pos e
  obtain ⟨hrest, hblocks, hlevels⟩ := hz.slots t ht
  exact still_slot (walk_atRest _ fuel).1 (walk_atRest _ fuel).2.2 w (n := 0) (by omega) hblocks.le
    (by omega) hrest

/-! ## On a cycle -/

/-- A selection of a key that leads back to itself is replaced by another one. -/
theorem member_of_cycle {paths : Paths} {f : String} (h : Relation.TransGen (Leads paths) f f)
    (o : Expr) : ∃ o' f', member paths o f = some (.member o' f') ∧
      Relation.TransGen (Leads paths) f' f' := by
  obtain ⟨f', hleads, hback⟩ := Relation.TransGen.head'_iff.mp h
  obtain ⟨hne, path, o', hpath, htarget⟩ := id hleads
  refine ⟨o', f', member_of_target hpath htarget fun hint hself => ?_, .tail' hback hleads⟩
  -- the path ends in `f'`, not in `f`
  rcases target_eq_some htarget with ⟨n, hn, -⟩ | ⟨-, hpathOf⟩
  · rw [hint] at hn
    contradiction
  · obtain ⟨q, -, rfl⟩ := pathOf?_member hself
    obtain ⟨q', -, hq'⟩ := pathOf?_member hpathOf
    have hlast : [f] = [f'] := (List.append_inj' hq' rfl).2
    exact hne (List.singleton_injective hlast).symm

/-- A block that returns nothing but a selection of a key that leads back to itself. -/
def OnCycle (given : Paths) (b : Block) : Prop :=
  ∃ o f, b = [.ret [.member o f]] ∧ AtRest (pass (usable given)) (.expr o) ∧
    Relation.TransGen (Leads (usable given)) f f

theorem onCycle_step {b b' : Block} (h : OnCycle given b)
    (hstep : BlockStep (pass (usable given)) b b') : OnCycle given b' := by
  obtain ⟨o, f, rfl, ho, hf⟩ := h
  cases hstep with
  | hook hstep => contradiction
  | items hstep =>
      cases hstep with
      | tail hstep => cases hstep
      | head hstep =>
          cases hstep with
          | hook hstep => contradiction
          | ret hstep =>
              cases hstep with
              | tail hstep => cases hstep
              | head hstep =>
                  cases hstep with
                  | member hstep => exact absurd (.expr hstep) ho.not_step
                  | hook hstep =>
                      obtain ⟨o', f', hanswer, hf'⟩ := member_of_cycle hf o
                      have hstands := (onExpr_eq_some hstep)
                      cases hstep.symm.trans hanswer
                      obtain ⟨-, -, -, -, hstands⟩ := hstands
                      exact ⟨o', f', rfl, hstands.atRest_object, hf'⟩

theorem OnCycle.not_atRest {b : Block} (h : OnCycle given b) :
    ¬ AtRest (pass (usable given)) (.block b) := by
  obtain ⟨o, f, rfl, -, hf⟩ := h
  obtain ⟨o', f', hanswer, -⟩ := member_of_cycle hf o
  have hstep : ExprStep (pass (usable given)) (.member o f) (.member o' f') := .hook hanswer
  exact fun hrest => hrest.not_step (.block (.items (.head (.ret (.head hstep)))))

/-! ## One walk -/

/-- Take fewer than 200 keys with paths of fewer than 200 segments.  One walk settles every block whose
expressions nest at most 256 levels, without giving up a slot, so that a second one replaces nothing,
exactly if no key leads back to itself through others. -/
theorem settles_iff (given : Paths) (hkeys : given.size < 200)
    (hpaths : ∀ p ∈ given.entries, p.2.length < 200) :
    (∀ b : Block, b.levels ≤ 256 → ((pass (usable given)).walk b).2.capped = 0 ∧
        (pass (usable given)).walk ((pass (usable given)).walk b).1
          = (((pass (usable given)).walk b).1, .start)) ↔
      ∀ key, ¬ Relation.TransGen (Leads (usable given)) key key := by
  constructor
  · intro h key hkey
    have hcycle : OnCycle given ((pass (usable given)).walk [.ret [.member (.name key) key]]).1 := by
      refine (pass (usable given)).walk_preserves (fun _ _ hstep h => onCycle_step h hstep) ?_
      exact ⟨_, key, rfl, .expr rfl (by simp [exprSlots]), hkey⟩
    have hlevels : Block.levels [.ret [.member (.name key) key]] ≤ 256 := by
      show 2 ≤ 256
      decide
    have hsecond := (h _ hlevels).2
    generalize ((pass (usable given)).walk [.ret [.member (.name key) key]]).1 = b at hcycle hsecond
    have hrest : AtRest (pass (usable given)) (.block ((pass (usable given)).walk b).1) :=
      (Pass.walk_of_smooth (by
        show Smooth .start ((pass (usable given)).walk b).2
        rw [hsecond]
        exact .refl rfl)).1
    rw [hsecond] at hrest
    exact hcycle.not_atRest hrest
  · intro hacyclic b hlevels
    have hsize : (usable given).size < maxRounds :=
      (List.length_filter_le ..).trans_lt (hkeys.trans (by decide))
    have hlongest : longest given ≤ 199 := by
      refine List.max_le_of_forall_le _ 199 fun n hn => ?_
      obtain ⟨p, hp, rfl⟩ := List.mem_map.mp hn
      exact Nat.le_of_lt_succ (hpaths p hp)
    have hsmooth := smooth_of_acyclic hacyclic hsize (b := b) (by unfold maxDepth; omega)
    exact ⟨hsmooth.capped, (Pass.walk_of_smooth hsmooth).2⟩

/-- `FOO` stands for itself and `BAR` leads to it. -/
def ownKeys : Paths := ⟨[("FOO", ["string", "FOO"]), ("BAR", ["bit32", "FOO"])]⟩

theorem leads_ownKeys {key key' : String} (h : Leads (usable ownKeys) key key') :
    key = "BAR" ∧ key' = "FOO" := by
  obtain ⟨hne, path, o, hpath, htarget⟩ := h
  have hmem := (of_get?_usable hpath).1
  rw [ownKeys, List.mem_pair] at hmem
  rcases hmem with hmem | hmem
  · cases hmem
    have hfoo : target ["string", "FOO"] = some (.member (.name "string") "FOO") := by rfl
    cases hfoo.symm.trans htarget
    contradiction
  · cases hmem
    have hbar : target ["bit32", "FOO"] = some (.member (.name "bit32") "FOO") := by rfl
    cases hbar.symm.trans htarget
    exact ⟨rfl, rfl⟩

/-- No key leads back to itself, so one walk settles every block. -/
theorem settles_ownKeys :
    ownKeys.size < 200 ∧ (∀ p ∈ ownKeys.entries, p.2.length < 200) ∧
      ∀ b : Block, b.levels ≤ 256 → ((pass (usable ownKeys)).walk b).2.capped = 0 ∧
        (pass (usable ownKeys)).walk ((pass (usable ownKeys)).walk b).1
          = (((pass (usable ownKeys)).walk b).1, .start) := by
  have hsize : ownKeys.size < 200 := by decide
  have hpaths : ∀ p ∈ ownKeys.entries, p.2.length < 200 := by decide
  refine ⟨hsize, hpaths, (settles_iff ownKeys hsize hpaths).mpr fun key hkey => ?_⟩
  -- the only step is from `BAR` to `FOO`
  obtain ⟨_, hfirst, _⟩ := Relation.TransGen.head'_iff.mp hkey
  obtain ⟨_, _, hlast⟩ := Relation.TransGen.tail'_iff.mp hkey
  have hkeys := (leads_ownKeys hfirst).1.symm.trans (leads_ownKeys hlast).2
  exact absurd hkeys (by decide)

/-- Each key stands for a selection of the other. -/
def mutualKeys : Paths := ⟨[("FOO", ["a", "BAR"]), ("BAR", ["b", "FOO"])]⟩

/-- `return x.FOO` uses up the rounds of its slot in the first walk, and again in the second. -/
theorem run_mutualKeys :
    let b : Block := [.ret [.member (.name "x") "FOO"]]
    let walk := (stage (usable mutualKeys)).run
    mutualKeys.size < 200 ∧ (∀ p ∈ mutualKeys.entries, p.2.length < 200) ∧ b.levels ≤ 256 ∧
      (walk b).2 = 256 ∧ (walk (walk b).1).2 = 256 := by
  decide +kernel

end Indirection

end Devirt
