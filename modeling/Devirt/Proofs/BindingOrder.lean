import Devirt.Proofs.SeparateBindings
import Mathlib.Data.List.Forall2

set_option autoImplicit false

/-! # The order of bindings

Replacements leave the bindings of a name in their order: some go, and an assignment may become a
declaration if the usage table takes it for the one (`Thins`), which is the first binding of the name.
So a name that no later binding declares stays such a name (`DeclaredFirst`), and it is inlined only
where it has no later binding at all (`Separate.binder`). -/

namespace Devirt

open Usage Temporaries

/-- Whatever binding follows another assigns, and has another identity. -/
def DeclaredFirst (βs : List Binder) : Prop :=
  βs.Pairwise fun β γ => γ.declares = false ∧ γ.id ≠ β.id

instance (βs : List Binder) : Decidable (DeclaredFirst βs) :=
  inferInstanceAs (Decidable (βs.Pairwise _))

/-- Those of some names that may move are bound by statements that bind nothing else, and declared by
the first of them only. -/
def Separate (options : Options) (names : String → Bool) (xs : List Item) : Prop :=
  ∀ n, names n = true → Moves options n xs → Lone n xs ∧ DeclaredFirst (itemsBindings n xs)

/-! ## The order of bindings -/

/-- What may become of a binding: it stays, or becomes a declaration if its identity allows that. -/
structure Binder.StemsFrom (P : NodeId → Prop) (β' β : Binder) : Prop where
  id : β'.id = β.id
  declares : β.declares = true → β'.declares = true
  promoted : β'.declares = true → β.declares = true ∨ P β.id

/-- Each name is bound in the same order as before, where some of its bindings may be gone. -/
def Thins (P : String → NodeId → Prop) (xs ys : List Item) : Prop :=
  ∀ n, List.SublistForall₂ (Binder.StemsFrom (P n)) (itemsBindings n ys) (itemsBindings n xs)

section

variable {xs ys zs : List Item} {P : String → NodeId → Prop} {Q : NodeId → Prop}
  {βs βs' γs γs' : List Binder}

instance : Std.Refl (Binder.StemsFrom Q) := ⟨fun _ => ⟨rfl, fun h => h, .inl⟩⟩

instance : IsTrans Binder (Binder.StemsFrom Q) where
  trans β'' β' β h' h := by
    refine ⟨h'.id.trans h.id, fun hβ => h'.declares (h.declares hβ), fun hβ'' => ?_⟩
    rcases h'.promoted hβ'' with hβ' | hQ
    · exact h.promoted hβ'
    · exact .inr (h.id ▸ hQ)

theorem sublistForall₂_append {R : Binder → Binder → Prop} (h : List.SublistForall₂ R βs' βs)
    (h' : List.SublistForall₂ R γs' γs) : List.SublistForall₂ R (βs' ++ γs') (βs ++ γs) := by
  rw [List.sublistForall₂_iff] at h h' ⊢
  obtain ⟨ts, hts, hsub⟩ := h
  obtain ⟨us, hus, hsub'⟩ := h'
  exact ⟨ts ++ us, List.rel_append hts hus, hsub.append hsub'⟩

namespace Thins

theorem refl (xs : List Item) : Thins P xs xs := fun _ => Std.Refl.refl _

theorem trans (h : Thins P xs ys) (h' : Thins P ys zs) : Thins P xs zs :=
  fun n => IsTrans.trans _ _ _ (h' n) (h n)

theorem append {xs' ys' : List Item} (h : Thins P xs ys) (h' : Thins P xs' ys') :
    Thins P (xs ++ xs') (ys ++ ys') := by
  intro n
  rw [itemsBindings_append, itemsBindings_append]
  exact sublistForall₂_append (h n) (h' n)

/-- What a statement holds is thinned, and the statement may be the first to declare its names. -/
theorem bind {s s' : Stmt} (h : Thins P xs ys) (hs : ∀ n,
      List.SublistForall₂ (Binder.StemsFrom (P n)) (s'.binder? n).toList (s.binder? n).toList) :
    Thins P [.bind s xs] [.bind s' ys] := by
  intro n
  rw [itemsBindings_bind, itemsBindings_bind]
  exact sublistForall₂_append (h n) (hs n)

/-- Where nothing is bound, all bindings are gone. -/
theorem of_flat (hys : itemsBinders ys = []) : Thins P xs ys := by
  intro n
  rw [itemsBindings_of_binders hys]
  exact .nil

/-- There are no more assignments. -/
theorem assigned_le (h : Thins P xs ys) (n : String) :
    (itemsBindings n ys).countP (!·.declares) ≤ (itemsBindings n xs).countP (!·.declares) := by
  have hcount : ∀ {βs' βs}, List.SublistForall₂ (Binder.StemsFrom (P n)) βs' βs →
      βs'.countP (!·.declares) ≤ βs.countP (!·.declares) := by
    intro βs' βs h
    induction h with
    | nil => exact Nat.zero_le _
    | cons hβ _ ih =>
        rw [List.countP_cons, List.countP_cons]
        refine Nat.add_le_add ih ?_
        split
        · rename_i hassigns
          rw [if_pos]
          by_contra hdeclares
          rw [hβ.declares (by simpa using hdeclares)] at hassigns
          contradiction
        · exact Nat.zero_le _
    | cons_right _ ih => exact ih.trans (List.countP_cons ▸ Nat.le_add_right ..)
  exact hcount (h n)

end Thins

theorem exists_mem_of_sublistForall₂ {R : Binder → Binder → Prop} (h : List.SublistForall₂ R βs' βs)
    {β' : Binder} (hβ' : β' ∈ βs') : ∃ β ∈ βs, R β' β := by
  induction h with
  | nil => contradiction
  | cons hR _ ih =>
      rcases List.mem_cons.mp hβ' with rfl | hβ'
      · exact ⟨_, List.mem_cons_self, hR⟩
      · obtain ⟨β, hβ, hR⟩ := ih hβ'
        exact ⟨β, List.mem_cons_of_mem _ hβ, hR⟩
  | cons_right _ ih =>
      obtain ⟨β, hβ, hR⟩ := ih hβ'
      exact ⟨β, List.mem_cons_of_mem _ hβ, hR⟩

/-- A name stays declared by its first binding only, if no other has become a declaration. -/
theorem DeclaredFirst.thin (hthin : List.SublistForall₂ (Binder.StemsFrom Q) βs' βs)
    (h : DeclaredFirst βs) (hQ : ∀ β ∈ βs.tail, ¬ Q β.id) : DeclaredFirst βs' := by
  induction hthin with
  | nil => exact .nil
  | @cons β' β βs' βs hβ hthin ih =>
      obtain ⟨hfirst, hrest⟩ := List.pairwise_cons.mp h
      refine List.pairwise_cons.mpr ⟨fun γ' hγ' => ?_, ih hrest fun γ hγ => hQ γ ?_⟩
      · obtain ⟨γ, hγ, hstems⟩ := exists_mem_of_sublistForall₂ hthin hγ'
        obtain ⟨hassigns, hid⟩ := hfirst γ hγ
        constructor
        · by_contra hdeclares
          rcases hstems.promoted (by simpa using hdeclares) with hγ | hγ'
          · rw [hassigns] at hγ
            contradiction
          · exact hQ γ hγ hγ'
        · rwa [hstems.id, hβ.id]
      · exact List.mem_of_mem_tail hγ
  | @cons_right βs' β βs hthin ih =>
      exact ih (List.pairwise_cons.mp h).2 fun γ hγ => hQ γ (List.mem_of_mem_tail hγ)

end

/-! ## Replacements and walks -/

section

variable {p : Pass} {heavy : String → Bool}

theorem Tidy.binder?_revised (hp : Tidy heavy p) {s s' : Stmt} (h : Revised p s s') (n : String) :
    s'.binder? n = s.binder? n := by
  cases h with
  | declare _ | values _ | hook _ => rfl
  | targets h =>
      rw [Stmt.binder?, Stmt.binder?, Stmt.names, Stmt.names, hp.names_step h]

theorem Tidy.congruent_thins (hp : Tidy heavy p) (P : String → NodeId → Prop) :
    Congruent p (Thins P) where
  refl := .refl
  append := .append
  bind hs h := .bind h fun n => by
    rw [hp.binder?_revised hs]
    exact Std.Refl.refl _

end

/-- The order of bindings stays the same where assignments become declarations. -/
theorem Temporaries.follows_thins (options : Options) (b : Block) : Follows (Context.mk options b.usage).pass
    (Thins fun n id => (Context.mk options b.usage).declaredBy id (.name n) = true) := by
  refine Context.follows ((tidy (balanced_true options b.items)).congruent_thins _) ?_ ?_ ?_
  · exact fun n v hv => .of_flat (Context.flat_of_substitute hv)
  · intro id targets values _ hall
    refine .bind (.refl _) fun n => ?_
    by_cases hn : n ∈ targets.filterMap Expr.name?
    · obtain ⟨t, ht, hname⟩ := List.mem_filterMap.mp hn
      obtain rfl := eq_name_of_name? hname
      rw [Stmt.binder?, Stmt.binder?, Stmt.names, Stmt.names, if_pos hn, if_pos hn]
      exact .cons ⟨rfl, fun _ => rfl, fun _ => .inr (hall _ ht)⟩ .nil
    · rw [binder?_of_notMem (s := .declare ..) hn]
      exact .nil
  · exact fun s _ => .of_flat rfl

theorem thins_folding (P : String → NodeId → Prop) (b : Block) :
    Thins P b.items (Folding.pass.walk b).1.items :=
  (Folding.follows ((Folding.tidy fun _ => true).congruent_thins P)).walk .trans b

/-- The order of bindings stays the same all through a walk over temporaries. -/
theorem thins_temporaries (options : Options) (b : Block) :
    Thins (fun n id => (Context.mk options b.usage).declaredBy id (.name n) = true) b.items
      ((Context.mk options b.usage).pass.walk b).1.items :=
  (Temporaries.follows_thins options b).walk .trans b

/-! ## Names that are bound separately -/

namespace Separate

variable {options : Options} {names : String → Bool} {b : Block} (h : Separate options names b.items)

include h

theorem apart : Apart options names b.items := fun n hn hmoves => (h n hn hmoves).1

theorem mono {names' : String → Bool} (hnames : ∀ n, names' n = true → names n = true) :
    Separate options names' b.items :=
  fun n hn => h n (hnames n hn)

/-- A name that is inlined is bound once. -/
theorem count_le {n : String} (hn : names n = true) {v : Expr}
    (hv : (Context.mk options b.usage).substitute (.name n) = some v) :
    (namesBound (allUses b.items)).count n ≤ 1 := by
  obtain ⟨hlone, hfirst⟩ := h n hn (moves_of_substitute hv)
  -- all bindings after the first declare the name, and none of them does
  obtain ⟨β, βs, heq, hdeclares⟩ := Context.bindings_of_substitute hlone hv
  rw [DeclaredFirst, heq, List.pairwise_cons] at hfirst
  have hnil : βs = [] := by
    rw [List.eq_nil_iff_forall_not_mem]
    intro γ hγ
    have hassigns := (hfirst.1 γ hγ).1
    rw [hdeclares γ hγ] at hassigns
    contradiction
  rw [count_namesBound hlone, heq, hnil]
  exact le_rfl

/-- What is inlined for a name is all there is in the only statement that binds it. -/
theorem binder {n : String} (hn : names n = true) {v : Expr}
    (hv : (Context.mk options b.usage).substitute (.name n) = some v) :
    (namesBound (allUses b.items)).count n ≤ 1 ∧
      ∃ s, (s, exprItems v) ∈ itemsBinders b.items ∧ s.width = 1 ∧ s.names = [n] ∧
        ∀ q ∈ itemsBinders b.items, n ∈ q.1.names → q = (s, exprItems v) := by
  obtain ⟨hlone, s, id, hs, hbind⟩ := h.apart.binder hn hv
  have hcount := h.count_le hn hv
  have hwidth := hlone _ hs (mem_names hbind)
  obtain ⟨hnames, -⟩ := content_of_width hs hwidth hbind
  refine ⟨hcount, s, hs, hwidth, hnames, fun q' hq' hn => ?_⟩
  refine binder_unique hcount hq' hs ?_ ?_
  · rwa [namesBound_bound]
  · rw [namesBound_bound, hnames]
    exact List.mem_singleton_self n

theorem folding : Separate options names (Folding.pass.walk b).1.items := by
  have hnarrows : Narrows (fun _ => true) b.items (Folding.pass.walk b).1.items := narrows_folding b
  intro n hn hmoves
  obtain ⟨hlone, hfirst⟩ := h n hn (hnarrows.moves hmoves)
  exact ⟨hnarrows.lone hlone, hfirst.thin (thins_folding (fun _ _ => False) b n) fun _ _ h => h⟩

/-- In a walk only the first binding becomes a declaration. -/
theorem walk : Separate options names ((Context.mk options b.usage).pass.walk b).1.items := by
  have hnarrows := narrows_temporaries (balanced_true options b.items)
  intro n hn hmoves
  obtain ⟨hlone, hfirst⟩ := h n hn (hnarrows.moves hmoves)
  refine ⟨hnarrows.lone hlone, hfirst.thin (thins_temporaries options b n) fun γ hγ hdeclared => ?_⟩
  obtain ⟨β, βs, heq, hid⟩ := Context.bindings_of_declaredBy hlone hdeclared
  rw [DeclaredFirst, heq, List.pairwise_cons] at hfirst
  rw [heq] at hγ
  exact (hfirst.1 γ hγ).2 hid.symm

end Separate

end Devirt
