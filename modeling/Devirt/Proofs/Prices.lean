import Devirt.Proofs.SeparateBindings
import Devirt.Proofs.Termination
import Mathlib.Algebra.Order.BigOperators.Group.List
import Mathlib.Data.List.Perm.Subperm

set_option autoImplicit false

/-! # Prices

A call, a read of a name and a binding of a name each have a price, and an outline *weighs* what its
uses cost.  Let a name cost, besides what it costs by itself, as much as what is inlined for it.  Such
prices exist, for what is inlined reads names of lower rank (`exists_price`).  They let inlining be paid
for: the copy costs what the read did. -/

namespace Devirt

open Usage Temporaries

def Use.isCall : Use → Bool
  | call => true
  | read _ | bind .. => false

/-- The number of calls in a block, be they statements or expressions. -/
def Block.calls (b : Block) : Nat := (allUses b.items).countP Use.isCall

/-- What the uses cost together. -/
def weigh (φ : Use → Nat) (us : List Use) : Nat := (us.map φ).sum

/-- Prices of calls, reads and bindings. -/
def price (call : Nat) (read bind : String → Nat) : Use → Nat
  | .call => call
  | .read n => read n
  | .bind n _ _ => bind n

section

variable {φ ψ : Use → Nat} {call : Nat} {read ω : String → Nat} {us vs : List Use}

theorem weigh_append (us vs : List Use) : weigh φ (us ++ vs) = weigh φ us + weigh φ vs := by
  rw [weigh, List.map_append, List.sum_append]
  rfl

theorem weigh_cons (u : Use) (us : List Use) : weigh φ (u :: us) = φ u + weigh φ us := rfl

theorem weigh_congr (h : ∀ u ∈ us, φ u = ψ u) : weigh φ us = weigh ψ us := by
  rw [weigh, List.map_congr_left h]
  rfl

theorem weigh_eq_zero (h : ∀ u ∈ us, φ u = 0) : weigh φ us = 0 := by
  refine List.sum_eq_zero fun w hw => ?_
  obtain ⟨u, hu, rfl⟩ := List.mem_map.mp hw
  exact h u hu

theorem weigh_sublist (h : us.Sublist vs) : weigh φ us ≤ weigh φ vs :=
  (h.map φ).sum_le_sum fun _ _ => Nat.zero_le _

theorem weigh_le (h : ∀ u, φ u ≤ ψ u) (us : List Use) : weigh φ us ≤ weigh ψ us :=
  List.sum_le_sum fun u _ => h u

/-- What reads cost additionally can be paid apart. -/
theorem weigh_reads (us : List Use) :
    weigh (price call (read + ω) 0) us =
      weigh (price call read 0) us + ((namesRead us).map ω).sum := by
  induction us with
  | nil => rfl
  | cons u us ih =>
      rw [weigh_cons, weigh_cons, ih]
      cases u with
      | read n =>
          change read n + ω n + _ = read n + _ + (ω n + ((namesRead us).map ω).sum)
          omega
      | _ => exact (Nat.add_assoc ..).symm

/-- What bindings cost can be paid apart. -/
theorem weigh_binds (us : List Use) :
    weigh (price call read ω) us =
      weigh (price call read 0) us + ((namesBound us).map ω).sum := by
  induction us with
  | nil => rfl
  | cons u us ih =>
      rw [weigh_cons, weigh_cons, ih]
      cases u with
      | bind n id v =>
          change ω n + _ = 0 + _ + (ω n + ((namesBound us).map ω).sum)
          omega
      | _ => exact (Nat.add_assoc ..).symm

/-- Only the names that cost something count. -/
theorem sum_le_of_count {xs ys : List String} (h : ∀ n, ω n ≠ 0 → xs.count n ≤ ys.count n) :
    (xs.map ω).sum ≤ (ys.map ω).sum := by
  have hzero : ∀ zs : List String, (zs.map ω).sum = ((zs.filter (ω · ≠ 0)).map ω).sum := by
    intro zs
    induction zs with
    | nil => rfl
    | cons z zs ih => by_cases hz : ω z = 0 <;> simp [hz, ih]
  have hsub : (xs.filter (ω · ≠ 0)).Subperm (ys.filter (ω · ≠ 0)) := by
    rw [List.subperm_iff_count]
    intro n
    by_cases hn : ω n = 0
    · rw [List.count_eq_zero.mpr (by simp [hn])]
      exact Nat.zero_le _
    · rw [List.count_filter (by simpa using hn), List.count_filter (by simpa using hn)]
      exact h n hn
  obtain ⟨zs, hperm, hsub⟩ := hsub
  rw [hzero xs, hzero ys, ← (hperm.map ω).sum_eq]
  exact (hsub.map ω).sum_le_sum fun _ _ => Nat.zero_le _

/-- The same, where the names of a set count on their own as well. -/
theorem sum_le_of_count_indicator {xs ys zs : List String} {Q : Set String}
    (h : ∀ n, ω n ≠ 0 → xs.count n ≤ Q.indicator (fun n => ys.count n) n + zs.count n) :
    (xs.map ω).sum ≤ (ys.map (Q.indicator ω)).sum + (zs.map ω).sum := by
  classical
  have hfilter : (ys.map (Q.indicator ω)).sum = ((ys.filter (· ∈ Q)).map ω).sum := by
    clear h
    induction ys with
    | nil => rfl
    | cons y ys ih => by_cases hy : y ∈ Q <;> simp [hy, ih]
  rw [hfilter, ← List.sum_append, ← List.map_append]
  refine sum_le_of_count fun n hn => ?_
  have hcount : (ys.filter (· ∈ Q)).count n = Q.indicator (fun n => ys.count n) n := by
    by_cases hnQ : n ∈ Q
    · rw [List.count_filter (by simpa using hnQ), Set.indicator_of_mem hnQ]
    · rw [List.count_eq_zero.mpr (by simp [hnQ]), Set.indicator_of_notMem hnQ]
  rw [List.count_append, hcount]
  exact h n hn

end

theorem calls_eq_weigh (b : Block) : b.calls = weigh (price 1 0 0) (allUses b.items) := by
  rw [Block.calls]
  induction allUses b.items with
  | nil => rfl
  | cons u us ih =>
      rw [List.countP_cons, weigh_cons, ih]
      cases u with
      | call => exact Nat.add_comm ..
      | _ => exact (Nat.zero_add _).symm

/-- The price of the reads of one name. -/
theorem weigh_indicator (n : String) (us : List Use) :
    weigh (price 0 (fun m => if m = n then 1 else 0) 0) us = (namesRead us).count n := by
  induction us with
  | nil => rfl
  | cons u us ih =>
      rw [weigh_cons, ih]
      cases u with
      | read m =>
          change (if m = n then 1 else 0) + _ = (m :: namesRead us).count n
          rw [List.count_cons, Nat.add_comm]
          simp
      | _ => exact Nat.zero_add _

/-! ## Prices for what is inlined -/

/-- A function of names that is given in terms of names of lower rank. -/
theorem exists_fixed {F : (String → Nat) → String → Nat} (rank : String → Nat)
    (hF : ∀ n f g, (∀ m, rank m < rank n → f m = g m) → F f n = F g n) :
    ∃ f, ∀ n, f n = F f n := by
  have hstable : ∀ k l n, rank n < k → rank n < l → F^[k] 0 n = F^[l] 0 n := by
    intro k
    induction k with
    | zero => intro l n hk; omega
    | succ k ih =>
        intro l n hk hl
        obtain ⟨l, rfl⟩ := Nat.exists_eq_add_one.mpr (Nat.zero_lt_of_lt hl)
        rw [Function.iterate_succ_apply', Function.iterate_succ_apply']
        exact hF n _ _ fun m hm => ih l m (by omega) (by omega)
  refine ⟨fun n => F^[rank n + 1] 0 n, fun n => ?_⟩
  have hsucc : F^[rank n + 1] 0 n = F (F^[rank n] 0) n := by rw [Function.iterate_succ_apply']
  refine hsucc.trans ?_
  exact hF n _ _ fun m hm => hstable _ _ m hm (Nat.lt_succ_self _)

theorem mem_namesRead_exprItems {e : Expr} {m : String}
    (h : m ∈ namesRead (allUses (exprItems e))) : .read m ∈ exprMarks e := by
  rw [← (recorded_expr [] e 0).namesRead.mem_iff, mem_namesRead, List.mem_filterMap] at h
  obtain ⟨ev, hev, huse⟩ := h
  rw [← (echoes_expr [] e 0).read_mem, List.mem_filterMap]
  cases ev with
  | read k place =>
      cases huse
      exact ⟨_, hev, rfl⟩
  | _ => simp [Event.use?] at huse

variable {options : Options} {b : Block}

/-- Some of the names for which something is inlined cost additionally as much as that does. -/
structure Pays (c : Context) (Q : String → Prop) (call : Nat) (read ω : String → Nat) : Prop where
  only : ∀ n, ω n ≠ 0 → Q n ∧ ∃ v, c.substitute (.name n) = some v
  inlined : ∀ n v, c.substitute (.name n) = some v → Q n →
    ω n = weigh (price call (read + ω) 0) (allUses (exprItems v))

theorem exists_price (options : Options) (b : Block) (Q : String → Prop) (call : Nat)
    (read : String → Nat) :
    ∃ ω : String → Nat, Pays (Context.mk options b.usage) Q call read ω := by
  classical
  obtain ⟨rank, hrank⟩ := Ranking.exists_ordered b.marks
  let F : (String → Nat) → String → Nat := fun f n =>
    match (Context.mk options b.usage).substitute (.name n) with
    | some v => if Q n then weigh (price call (read + f) 0) (allUses (exprItems v)) else 0
    | none => 0
  obtain ⟨ω, hω⟩ : ∃ ω, ∀ n, ω n = F ω n := by
    refine exists_fixed rank fun n f g hfg => ?_
    simp only [F]
    cases hv : (Context.mk options b.usage).substitute (.name n) with
    | none => rfl
    | some v =>
        obtain ⟨m, hm, hadmits⟩ := Context.admits_of_substitute hv
        cases hm
        have hsame : weigh (price call (read + f) 0) (allUses (exprItems v))
            = weigh (price call (read + g) 0) (allUses (exprItems v)) := by
          refine weigh_congr fun u hu => ?_
          cases u with
          | read m =>
              have hlower := Ranking.lower_of_admits hrank hadmits
                (Ranking.mem_reads.mpr (mem_namesRead_exprItems (mem_namesRead.mpr hu)))
              simp only [price, Pi.add_apply, hfg m hlower]
          | _ => rfl
        simp only [hsame]
  refine ⟨ω, fun n hne => ?_, fun n v hv hQ => ?_⟩
  · rw [hω] at hne
    simp only [F] at hne
    split at hne
    · rename_i v hv
      split at hne
      · rename_i hQ
        exact ⟨hQ, v, hv⟩
      · contradiction
    · contradiction
  · conv_lhs => rw [hω]
    simp only [F, hv, if_pos hQ]

/-! ## Readings of one cover -/

section

variable {call : Nat} {read bind : String → Nat} {covered : Stmt → Bool} {p : Pass}

/-- What a statement binds costs what its names cost. -/
theorem weigh_bound (s : Stmt) : weigh (price call read bind) s.bound = (s.names.map bind).sum := by
  rw [← namesBound_bound]
  have hbound : ∀ us : List Use, (∀ u ∈ us, u.bound?.isSome) →
      weigh (price call read bind) us = ((namesBound us).map bind).sum := by
    intro us hus
    induction us with
    | nil => rfl
    | cons u us ih =>
        obtain ⟨hu, hrest⟩ := List.forall_mem_cons.mp hus
        cases u with
        | bind n id v => exact congrArg (bind n + ·) (ih hrest)
        | _ => contradiction
  refine hbound _ fun u hu => ?_
  obtain ⟨n, id, v, rfl⟩ := eq_bind_of_bound s u hu
  rfl

theorem sum_map_zero (ns : List String) : (ns.map (0 : String → Nat)).sum = 0 := by
  induction ns with
  | nil => rfl
  | cons n ns ih => rw [List.map_cons, List.sum_cons, ih, Pi.zero_apply]

theorem weigh_bind (s : Stmt) (xs : List Item) :
    weigh (price call read bind) (itemsUses covered [.bind s xs]) = (s.names.map bind).sum +
      if covered s then 0 else weigh (price call read bind) (itemsUses covered xs) := by
  rw [itemsUses_bind, weigh_append, weigh_bound]
  split <;> rfl

/-- Comparing weights goes into statements, if the cover does not tell a statement from what becomes
of it. -/
theorem congruent_weigh {r : Nat → Nat → Prop} (hrefl : ∀ a, r a a)
    (hadd : ∀ {a b a' b'}, r a b → r a' b' → r (a + a') (b + b'))
    (hcovered : ∀ s s', Revised p s s' → covered s' = covered s) :
    Congruent p fun xs ys => r (weigh (price call read 0) (itemsUses covered xs))
      (weigh (price call read 0) (itemsUses covered ys)) where
  refl _ := hrefl _
  append h h' := by
    rw [itemsUses_append, itemsUses_append, weigh_append, weigh_append]
    exact hadd h h'
  bind {s s' xs ys} hs h := by
    rw [weigh_bind, weigh_bind, hcovered s s' hs]
    rw [sum_map_zero, sum_map_zero]
    refine hadd (hrefl 0) ?_
    split
    · exact hrefl 0
    · exact h

/-- A statement weighs no more, if what it holds does not and what is covered stays so. -/
theorem weigh_bind_le {s s' : Stmt} {xs ys : List Item}
    (hcovered : covered s = true → covered s' = true)
    (h : weigh (price call read 0) (itemsUses covered ys) ≤
      weigh (price call read 0) (itemsUses covered xs)) :
    weigh (price call read 0) (itemsUses covered [.bind s' ys]) ≤
      weigh (price call read 0) (itemsUses covered [.bind s xs]) := by
  rw [weigh_bind, weigh_bind, sum_map_zero, sum_map_zero, Nat.zero_add, Nat.zero_add]
  cases hs' : covered s' with
  | true => exact Nat.zero_le _
  | false =>
      have hs : covered s = false := by
        by_contra hs
        rw [hcovered (by simpa using hs)] at hs'
        contradiction
      rwa [hs]

/-- That nothing weighs more goes into statements, if what is covered stays so. -/
theorem congruent_weigh_le
    (hcovered : ∀ s s', Revised p s s' → covered s = true → covered s' = true) :
    Congruent p fun xs ys => weigh (price call read 0) (itemsUses covered ys) ≤
      weigh (price call read 0) (itemsUses covered xs) where
  refl _ := le_rfl
  append h h' := by
    rw [itemsUses_append, itemsUses_append, weigh_append, weigh_append]
    exact Nat.add_le_add h h'
  bind hs h := weigh_bind_le (hcovered _ _ hs) h

/-- Folding changes no weight. -/
theorem weigh_folding (hcovered : ∀ s s', Revised Folding.pass s s' → covered s' = covered s)
    (b : Block) : weigh (price call read 0) (itemsUses covered (Folding.pass.walk b).1.items) =
      weigh (price call read 0) (itemsUses covered b.items) := by
  have hfollows : Follows Folding.pass fun xs ys =>
      weigh (price call read 0) (itemsUses covered xs) =
        weigh (price call read 0) (itemsUses covered ys) :=
    Folding.follows (congruent_weigh (r := Eq) (fun _ => rfl)
    (fun h h' => by rw [h, h']) hcovered)
  exact (hfollows.walk Eq.trans b).symm

end

end Devirt
