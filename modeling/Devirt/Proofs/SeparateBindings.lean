import Devirt.Proofs.OutlineUsage
import Devirt.Proofs.FoldingRules

set_option autoImplicit false

/-! # Bindings that nothing else hangs on

What is inlined for a temporary is the value of its first binding, and afterwards that binding is
dropped.  It is dropped as a whole only if the statement binds no other name (`Apart`).  Replacements
keep bindings apart: each statement that binds something afterwards stems from one that bound the same
names before (`Stems`).

Some names may be called *heavy*, such that a temporary is heavy whenever what it is bound to holds a
call or reads a heavy name (`Balanced`).  That is kept as well. -/

namespace Devirt

open Usage Temporaries

/-! ## Values that move -/

/-- A name, an element of a named table under a named key, or an operation. -/
def Expr.isMovable : Expr → Bool
  | .name _ | .index (.name _) (.name _) | .binary .. => true
  | _ => false

theorem namesBound_bound (s : Stmt) : namesBound s.bound = s.names := by
  cases s with
  | declare id names values =>
      rw [Stmt.bound, namesBound, List.filterMap_map, Stmt.names]
      calc (paired names values).filterMap (fun q => some q.1)
          = (paired names values).map Prod.fst := by rw [List.filterMap_eq_map']
        _ = names := paired_fst names values
  | assign id targets values =>
      rw [Stmt.bound, namesBound, List.filterMap_filterMap, Stmt.names]
      conv_rhs => rw [← paired_fst targets values, List.filterMap_map]
      congr 1
      funext q
      rw [Function.comp_apply]
      cases q.1.name? <;> rfl
  | _ => rfl

theorem names_of_width {s : Stmt} {n : String} (hs : s.width = 1) (h : n ∈ s.names) :
    s.names = [n] := by
  cases s with
  | declare id names values =>
      obtain ⟨m, rfl⟩ := List.length_eq_one_iff.mp hs
      rw [Stmt.names, List.mem_singleton] at h
      rw [Stmt.names, h]
  | assign id targets values =>
      obtain ⟨t, rfl⟩ := List.length_eq_one_iff.mp hs
      obtain ⟨t', ht', hn⟩ := List.mem_filterMap.mp h
      rw [List.mem_singleton.mp ht'] at hn
      rw [Stmt.names, List.filterMap_cons, hn]
      rfl
  | _ => contradiction

theorem mem_names {s : Stmt} {n : String} {id : NodeId} {v : Option Expr}
    (h : .bind n id v ∈ s.bound) : n ∈ s.names := by
  rw [← namesBound_bound]
  exact mem_namesBound.mpr ⟨id, v, h⟩

/-- A statement of one name or target that binds a name to a value. -/
theorem eq_of_width {s : Stmt} {n : String} {id : NodeId} {v : Expr} (hs : s.width = 1)
    (h : .bind n id (some v) ∈ s.bound) :
    s = .declare id [n] [v] ∨ s = .assign id [.name n] [v] := by
  cases s with
  | declare id' names values =>
      obtain ⟨m, rfl⟩ := List.length_eq_one_iff.mp hs
      obtain ⟨q, hq, heq⟩ := List.mem_map.mp h
      unfold paired at hq
      split at hq
      · rename_i hlength
        obtain ⟨w, rfl⟩ := List.length_eq_one_iff.mp hlength.symm
        simp_all
      · simp_all
  | assign id' targets values =>
      obtain ⟨t, rfl⟩ := List.length_eq_one_iff.mp hs
      obtain ⟨q, hq, heq⟩ := List.mem_filterMap.mp h
      unfold paired at hq
      split at hq
      · rename_i hlength
        obtain ⟨w, rfl⟩ := List.length_eq_one_iff.mp hlength.symm
        obtain ⟨m, hm, heq⟩ := Option.map_eq_some_iff.mp heq
        obtain rfl : q = (t, some w) := by simpa using hq
        obtain rfl := eq_name_of_name? hm
        simp_all
      · obtain ⟨m, hm, heq⟩ := Option.map_eq_some_iff.mp heq
        simp_all
  | _ => contradiction

/-! ## The invariant -/

def Use.isHeavy (heavy : String → Bool) : Use → Bool
  | call => true
  | read n => heavy n
  | bind .. => false

/-- The outline holds a call or reads a heavy name. -/
def HasHeavy (heavy : String → Bool) (xs : List Item) : Prop :=
  ∃ u ∈ allUses xs, u.isHeavy heavy = true

/-- The temporary is bound to what may move. -/
structure Moves (options : Options) (n : String) (xs : List Item) : Prop where
  temporary : isTemporary options n = true
  bound : ∃ q ∈ itemsBinders xs, ∃ id v, .bind n id (some v) ∈ q.1.bound ∧ v.isMovable = true

/-- Those of some names that may move are bound by statements that bind nothing else. -/
def Apart (options : Options) (names : String → Bool) (xs : List Item) : Prop :=
  ∀ n, names n = true → Moves options n xs → Lone n xs

/-- A temporary that is bound to what may move is heavy if something heavy stands there. -/
def Balanced (options : Options) (heavy : String → Bool) (xs : List Item) : Prop :=
  ∀ q ∈ itemsBinders xs, ∀ n id v, .bind n id (some v) ∈ q.1.bound →
    isTemporary options n = true → v.isMovable = true → HasHeavy heavy q.2 → heavy n = true

section

variable (options : Options) (heavy : String → Bool)

/-- A binding stems from another: it binds the same names, to what may move only if that was so
before, and it has become no heavier. -/
structure Stems (q q' : Stmt × List Item) : Prop where
  width : q'.1.width = q.1.width
  names : q'.1.names = q.1.names
  bound : ∀ n id v', .bind n id (some v') ∈ q'.1.bound → v'.isMovable = true →
    ∃ v, .bind n id (some v) ∈ q.1.bound ∧ v.isMovable = true ∧
      ∀ m', v' = .name m' → ∃ m, v = .name m ∧ (heavy m' = true → heavy m = true)
  heavy : HasHeavy heavy q'.2 → HasHeavy heavy q.2

/-- All bindings stem from bindings, and nothing has become heavier. -/
structure Narrows (xs ys : List Item) : Prop where
  binders : ∀ q' ∈ itemsBinders ys, ∃ q ∈ itemsBinders xs, Stems heavy q q'
  heavy : HasHeavy heavy ys → HasHeavy heavy xs

end

variable {options : Options} {heavy : String → Bool} {xs ys zs : List Item}
  {q q' q'' : Stmt × List Item}

/-- The names that may all be heavy. -/
theorem balanced_true (options : Options) (xs : List Item) :
    Balanced options (fun _ => true) xs := fun _ _ _ _ _ _ _ _ _ => rfl

theorem hasHeavy_append : HasHeavy heavy (xs ++ ys) ↔ HasHeavy heavy xs ∨ HasHeavy heavy ys := by
  simp only [HasHeavy, allUses, itemsUses_append, List.mem_append, or_and_right, exists_or]

theorem hasHeavy_bind {s : Stmt} : HasHeavy heavy [.bind s xs] ↔ HasHeavy heavy xs := by
  rw [HasHeavy, allUses, itemsUses_bind, HasHeavy]
  constructor
  · rintro ⟨u, hu, h⟩
    rcases List.mem_append.mp hu with hu | hu
    · obtain ⟨n, id, v, rfl⟩ := eq_bind_of_bound s u hu
      contradiction
    · exact ⟨u, hu, h⟩
  · rintro ⟨u, hu, h⟩
    exact ⟨u, List.mem_append_right _ hu, h⟩

namespace Stems

theorem refl (q : Stmt × List Item) : Stems heavy q q :=
  ⟨rfl, rfl, fun _ _ v h hv => ⟨v, h, hv, fun m hm => ⟨m, hm, id⟩⟩, id⟩

theorem trans (h : Stems heavy q q') (h' : Stems heavy q' q'') : Stems heavy q q'' := by
  refine ⟨h'.width.trans h.width, h'.names.trans h.names, ?_, fun hh => h.heavy (h'.heavy hh)⟩
  intro n id v'' hbind hmovable
  obtain ⟨v', hbind', hmovable', hname'⟩ := h'.bound n id v'' hbind hmovable
  obtain ⟨v, hbind₀, hmovable₀, hname⟩ := h.bound n id v' hbind' hmovable'
  refine ⟨v, hbind₀, hmovable₀, fun m'' hm'' => ?_⟩
  obtain ⟨m', rfl, hle'⟩ := hname' m'' hm''
  obtain ⟨m, hm, hle⟩ := hname m' rfl
  exact ⟨m, hm, fun h => hle (hle' h)⟩

end Stems

namespace Narrows

theorem refl (xs : List Item) : Narrows heavy xs xs :=
  ⟨fun q hq => ⟨q, hq, .refl q⟩, id⟩

theorem trans (h : Narrows heavy xs ys) (h' : Narrows heavy ys zs) : Narrows heavy xs zs := by
  refine ⟨?_, fun hh => h.heavy (h'.heavy hh)⟩
  intro q'' hq''
  obtain ⟨q', hq', hstems'⟩ := h'.binders q'' hq''
  obtain ⟨q, hq, hstems⟩ := h.binders q' hq'
  exact ⟨q, hq, hstems.trans hstems'⟩

theorem append {xs' ys' : List Item} (h : Narrows heavy xs ys) (h' : Narrows heavy xs' ys') :
    Narrows heavy (xs ++ xs') (ys ++ ys') := by
  constructor
  · intro q hq
    rw [itemsBinders_append, List.mem_append] at hq
    rw [itemsBinders_append]
    rcases hq with hq | hq
    · obtain ⟨q₀, hq₀, hstems⟩ := h.binders q hq
      exact ⟨q₀, List.mem_append_left _ hq₀, hstems⟩
    · obtain ⟨q₀, hq₀, hstems⟩ := h'.binders q hq
      exact ⟨q₀, List.mem_append_right _ hq₀, hstems⟩
  · rw [hasHeavy_append, hasHeavy_append]
    exact Or.imp h.heavy h'.heavy

/-- What a statement holds is narrowed, while it goes on to bind the same names. -/
theorem bind {s s' : Stmt} (hs : ∀ {xs ys}, Narrows heavy xs ys → Stems heavy (s, xs) (s', ys))
    (h : Narrows heavy xs ys) : Narrows heavy [.bind s xs] [.bind s' ys] := by
  constructor
  · rw [itemsBinders, itemsBinders, Item.binders, List.append_nil, itemsBinders, itemsBinders,
      Item.binders, List.append_nil]
    refine List.forall_mem_cons.mpr ⟨⟨_, List.mem_cons_self, hs h⟩, fun q' hq' => ?_⟩
    obtain ⟨q, hq, hstems⟩ := h.binders q' hq'
    exact ⟨q, List.mem_cons_of_mem _ hq, hstems⟩
  · rw [hasHeavy_bind, hasHeavy_bind]
    exact h.heavy

/-- Where nothing is bound and nothing is heavier, the outline is narrower. -/
theorem of_flat (hys : itemsBinders ys = []) (hheavy : HasHeavy heavy ys → HasHeavy heavy xs) :
    Narrows heavy xs ys :=
  ⟨by simp [hys], hheavy⟩

theorem lone {n : String} (h : Narrows heavy xs ys) (hxs : Lone n xs) : Lone n ys := by
  intro q' hq' hn
  obtain ⟨q, hq, hstems⟩ := h.binders q' hq'
  rw [hstems.names] at hn
  exact hstems.width.trans (hxs q hq hn)

theorem moves {n : String} (h : Narrows heavy xs ys) (hn : Moves options n ys) :
    Moves options n xs := by
  obtain ⟨q', hq', id, v', hbind, hmovable⟩ := hn.bound
  obtain ⟨q, hq, hstems⟩ := h.binders q' hq'
  obtain ⟨v, hbind, hmovable, -⟩ := hstems.bound n id v' hbind hmovable
  exact ⟨hn.temporary, q, hq, id, v, hbind, hmovable⟩

/-- Bindings stay apart. -/
theorem apart {names : String → Bool} (h : Narrows heavy xs ys) (hxs : Apart options names xs) :
    Apart options names ys :=
  fun n hn hmoves => h.lone (hxs n hn (h.moves hmoves))

theorem balanced (h : Narrows heavy xs ys) (hxs : Balanced options heavy xs) :
    Balanced options heavy ys := by
  intro q' hq' n id v' hbind htemp hmovable hheavy
  obtain ⟨q, hq, hstems⟩ := h.binders q' hq'
  obtain ⟨v, hbind₀, hmovable₀, -⟩ := hstems.bound n id v' hbind hmovable
  exact hxs q hq n id v hbind₀ htemp hmovable₀ (hstems.heavy hheavy)

end Narrows

/-! ## Replacements below a binding -/

theorem ListStep.length {α : Type} {R : α → α → Prop} {as as' : List α} (h : ListStep R as as') :
    as'.length = as.length := by
  induction h with
  | head _ => rfl
  | tail _ ih => exact congrArg (· + 1) ih

theorem ListStep.zip_left {α β : Type} {R : α → α → Prop} {as as' : List α} (h : ListStep R as as')
    {a' : α} {b : β} {bs : List β} (hmem : (a', b) ∈ as'.zip bs) :
    ∃ a, (a, b) ∈ as.zip bs ∧ (a = a' ∨ R a a') := by
  induction h generalizing bs with
  | @head x y xs hxy =>
      cases bs with
      | nil => simp at hmem
      | cons b' bs =>
          rw [List.zip_cons_cons, List.mem_cons] at hmem
          rcases hmem with heq | hmem
          · cases heq
            exact ⟨x, List.mem_cons_self, .inr hxy⟩
          · exact ⟨a', List.mem_cons_of_mem _ hmem, .inl rfl⟩
  | @tail x xs ys hxs ih =>
      cases bs with
      | nil => simp at hmem
      | cons b' bs =>
          rw [List.zip_cons_cons, List.mem_cons] at hmem
          rcases hmem with heq | hmem
          · cases heq
            exact ⟨a', List.mem_cons_self, .inl rfl⟩
          · obtain ⟨a, ha, hstep⟩ := ih hmem
            exact ⟨a, List.mem_cons_of_mem _ ha, hstep⟩

theorem mem_paired_some {α : Type} {items : List α} {values : List Expr} {x : α} {v : Expr} :
    (x, some v) ∈ paired items values ↔ items.length = values.length ∧ (x, v) ∈ items.zip values := by
  unfold paired
  split
  · rename_i h
    simp only [h, true_and, List.zip_map_right, List.mem_map, Prod.map_apply, id_eq, Prod.mk.injEq,
      Option.some.injEq, Prod.exists]
    exact ⟨fun ⟨a, b, hab, ha, hb⟩ => ha ▸ hb ▸ hab, fun h => ⟨x, v, h, rfl, rfl⟩⟩
  · rename_i h
    simp [h]

/-- What an item is paired with is what it was paired with, or has become of that. -/
theorem paired_values_step {α : Type} {R : Expr → Expr → Prop} {items : List α}
    {values values' : List Expr} (h : ListStep R values values') {x : α} {v' : Expr}
    (hmem : (x, some v') ∈ paired items values') :
    ∃ v, (x, some v) ∈ paired items values ∧ (v = v' ∨ R v v') := by
  rw [mem_paired_some, h.length] at hmem
  obtain ⟨hlength, hmem⟩ := hmem
  have hswap : (v', x) ∈ values'.zip items := by
    rw [← List.zip_swap]
    exact List.mem_map_of_mem hmem
  obtain ⟨v, hv, hstep⟩ := h.zip_left hswap
  refine ⟨v, mem_paired_some.mpr ⟨hlength, ?_⟩, hstep⟩
  rw [← List.zip_swap]
  exact List.mem_map_of_mem hv

theorem paired_items_step {α : Type} {R : α → α → Prop} {items items' : List α}
    {values : List Expr} (h : ListStep R items items') {x' : α} {v : Expr}
    (hmem : (x', some v) ∈ paired items' values) :
    ∃ x, (x, some v) ∈ paired items values ∧ (x = x' ∨ R x x') := by
  rw [mem_paired_some, h.length] at hmem
  obtain ⟨x, hx, hstep⟩ := h.zip_left hmem.2
  exact ⟨x, mem_paired_some.mpr ⟨hmem.1, hx⟩, hstep⟩

theorem mem_bound_declare {id id' : NodeId} {names : List String} {values : List Expr} {n : String}
    {v : Option Expr} : .bind n id' v ∈ (Stmt.declare id names values).bound ↔
      id' = id ∧ (n, v) ∈ paired names values := by
  rw [Stmt.bound, List.mem_map]
  constructor
  · rintro ⟨q, hq, heq⟩
    cases heq
    exact ⟨rfl, hq⟩
  · rintro ⟨rfl, h⟩
    exact ⟨_, h, rfl⟩

theorem mem_bound_assign {id id' : NodeId} {targets values : List Expr} {n : String}
    {v : Option Expr} : .bind n id' v ∈ (Stmt.assign id targets values).bound ↔
      id' = id ∧ (.name n, v) ∈ paired targets values := by
  rw [Stmt.bound, List.mem_filterMap]
  constructor
  · rintro ⟨⟨t, w⟩, hq, heq⟩
    obtain ⟨m, hm, heq⟩ := Option.map_eq_some_iff.mp heq
    cases heq
    obtain rfl := eq_name_of_name? hm
    exact ⟨rfl, hq⟩
  · rintro ⟨rfl, h⟩
    exact ⟨_, h, rfl⟩

/-- What the answers of a pass do to values: none becomes one that may move, and a name gives way to
no heavier name. -/
structure Tidy (heavy : String → Bool) (p : Pass) : Prop where
  name : ∀ e e', p.onExpr e = some e' → e'.name? = none
  movable : ∀ e e', p.onExpr e = some e' → e'.isMovable = true → e.isMovable = true
  assign : ∀ id t v v', p.onStmt (.assign id [t] [v]) = some (.assign id [t] [v']) →
    v'.isMovable = true → v.isMovable = true ∧
      ∀ m', v' = .name m' → ∃ m, v = .name m ∧ (heavy m' = true → heavy m = true)

namespace Tidy

variable {p : Pass}

theorem movable_step (hp : Tidy heavy p) {e e' : Expr} (h : ExprStep p e e')
    (he : e'.isMovable = true) : e.isMovable = true := by
  cases h with
  | hook h => exact hp.movable _ _ h he
  | binaryLeft _ | binaryRight _ => rfl
  | indexTable h =>
      -- a table that is replaced is no name afterwards
      obtain ⟨-, hnone⟩ := h.name?_eq_none hp.name
      unfold Expr.isMovable at he
      split at he <;> simp_all [Expr.name?]
  | indexKey h =>
      obtain ⟨-, hnone⟩ := h.name?_eq_none hp.name
      unfold Expr.isMovable at he
      split at he <;> simp_all [Expr.name?]
  | _ => contradiction

/-- A value that is kept, or replaced below. -/
theorem value_step (hp : Tidy heavy p) {v v' : Expr} (h : v = v' ∨ ExprStep p v v')
    (hv' : v'.isMovable = true) : v.isMovable = true ∧
      ∀ m', v' = .name m' → ∃ m, v = .name m ∧ (heavy m' = true → heavy m = true) := by
  rcases h with rfl | h
  · exact ⟨hv', fun m hm => ⟨m, hm, id⟩⟩
  · refine ⟨hp.movable_step h hv', ?_⟩
    rintro m' rfl
    obtain ⟨-, hnone⟩ := h.name?_eq_none hp.name
    contradiction

theorem names_step (hp : Tidy heavy p) {es es' : List Expr} (h : ListStep (ExprStep p) es es') :
    es'.filterMap Expr.name? = es.filterMap Expr.name? := by
  induction h with
  | head h =>
      obtain ⟨hnone, hnone'⟩ := h.name?_eq_none hp.name
      rw [List.filterMap_cons, List.filterMap_cons, hnone, hnone']
  | tail _ ih => rw [List.filterMap_cons, List.filterMap_cons, ih]

theorem stems (hp : Tidy heavy p) {s s' : Stmt} (h : Revised p s s') (hxs : Narrows heavy xs ys) :
    Stems heavy (s, xs) (s', ys) := by
  cases h with
  | declare h =>
      refine ⟨rfl, rfl, fun n id v' hbind hv' => ?_, hxs.heavy⟩
      obtain ⟨rfl, hmem⟩ := mem_bound_declare.mp hbind
      obtain ⟨v, hv, hstep⟩ := paired_values_step h hmem
      exact ⟨v, mem_bound_declare.mpr ⟨rfl, hv⟩, hp.value_step hstep hv'⟩
  | values h =>
      refine ⟨rfl, rfl, fun n id v' hbind hv' => ?_, hxs.heavy⟩
      obtain ⟨rfl, hmem⟩ := mem_bound_assign.mp hbind
      obtain ⟨v, hv, hstep⟩ := paired_values_step h hmem
      exact ⟨v, mem_bound_assign.mpr ⟨rfl, hv⟩, hp.value_step hstep hv'⟩
  | targets h =>
      refine ⟨h.length, hp.names_step h, fun n id v hbind hv => ?_, hxs.heavy⟩
      obtain ⟨rfl, hmem⟩ := mem_bound_assign.mp hbind
      obtain ⟨t, ht, hstep⟩ := paired_items_step h hmem
      rcases hstep with rfl | hstep
      · exact ⟨v, mem_bound_assign.mpr ⟨rfl, ht⟩, hv, fun m hm => ⟨m, hm, fun h => h⟩⟩
      · obtain ⟨-, hnone⟩ := hstep.name?_eq_none hp.name
        contradiction
  | hook h =>
      refine ⟨rfl, rfl, fun n id v' hbind hv' => ?_, hxs.heavy⟩
      obtain ⟨rfl, hmem⟩ := mem_bound_assign.mp hbind
      obtain ⟨rfl, rfl⟩ : _ = _ ∧ v' = _ := by simpa [mem_paired_some] using hmem
      exact ⟨_, mem_bound_assign.mpr ⟨rfl, by simp [mem_paired_some]⟩, hp.assign _ _ _ _ h hv'⟩

theorem congruent (hp : Tidy heavy p) : Congruent p (Narrows heavy) where
  refl := .refl
  append := .append
  bind hs h := .bind (fun h => hp.stems hs h) h

end Tidy

/-! ## Folding -/

namespace Folding

theorem exprItems_of_isLiteral {e : Expr} (h : e.isLiteral = true) : exprItems e = [] := by
  cases e <;> first | rfl | contradiction

theorem entriesItems_of_isArray {entries : List Entry} (h : IsArray entries) :
    entriesItems entries = [] := by
  induction entries with
  | nil => rfl
  | cons e entries ih =>
      obtain ⟨⟨v, rfl, hv, -⟩, htail⟩ := List.forall_mem_cons.mp h
      rw [entriesItems, exprItems_of_isLiteral hv, ih htail]
      rfl

/-- Folding keeps what is read and called; its results are numbers, or operations again. -/
theorem onExpr_eq_some {e e' : Expr} (h : pass.onExpr e = some e') :
    exprItems e' = exprItems e ∧ e'.name? = none ∧
      (e'.isMovable = true → e.isMovable = true) := by
  cases foldsTo_of_onExpr h with
  | negation x => exact ⟨rfl, rfl, fun h => by contradiction⟩
  | length hall => exact ⟨(entriesItems_of_isArray hall).symm, rfl, fun h => by contradiction⟩
  | comparison hop hr => exact ⟨List.append_nil _, rfl, fun _ => rfl⟩

theorem tidy (heavy : String → Bool) : Tidy heavy pass where
  name _ _ h := (onExpr_eq_some h).2.1
  movable _ _ h := (onExpr_eq_some h).2.2
  assign _ _ _ _ h := by contradiction

/-- Any relation that goes into statements relates the outlines before and after folding. -/
theorem follows {A : List Item → List Item → Prop} (hA : Congruent pass A) : Follows pass A where
  toCongruent := hA
  name _ _ h := (onExpr_eq_some h).2.1
  expr _ _ h := by
    rw [(onExpr_eq_some h).1]
    exact hA.refl _
  stmt s _ h := by cases s <;> contradiction
  block _ _ h := by contradiction

end Folding

/-! ## Collapsing temporaries -/

namespace Temporaries

namespace Context

variable {c : Context} {A : List Item → List Item → Prop}

theorem isMovable_of_inlinable {n : String} {v : Variable} {e : Expr}
    (h : inlinable n v e = true) : e.isMovable = true := by
  unfold inlinable at h
  rw [Bool.and_eq_true] at h
  obtain ⟨-, h⟩ := h
  unfold Expr.isMovable
  split at h <;> simp_all

theorem flat_of_substitute {n : String} {v : Expr} (h : c.substitute (.name n) = some v) :
    itemsBinders (exprItems v) = [] := by
  obtain ⟨m, var, hm, -, -, hinline⟩ := substitute_eq_some h
  exact itemsBinders_of_mentions v (mentions_of_inlinable hinline)

theorem targetsItems_of_declaredBy {id : NodeId} {targets : List Expr}
    (h : ∀ t ∈ targets, c.declaredBy id t = true) : targetsItems targets = [] := by
  induction targets with
  | nil => rfl
  | cons t targets ih =>
      obtain ⟨ht, htargets⟩ := List.forall_mem_cons.mp h
      obtain ⟨n, v, rfl, -⟩ := declaredBy_eq_true ht
      exact ih htargets

/-- A relation that goes into statements relates the outlines before and after a walk, if it does so
for what is inlined, for assignments that become declarations, and for dead declarations. -/
theorem follows (hA : Congruent c.pass A)
    (hinline : ∀ n v, c.substitute (.name n) = some v → A [.read n] (exprItems v))
    (hpromote : ∀ id targets values, targets ≠ [] → (∀ t ∈ targets, c.declaredBy id t = true) →
      A [.bind (.assign id targets values) (exprsItems values)]
        [.bind (.declare id (targets.filterMap Expr.name?) values) (exprsItems values)])
    (hdrop : ∀ s, c.isDeadStmt s = true → A (stmtItems s) []) : Follows c.pass A := by
  have hone : ∀ {e e' : Expr}, e' = e ∨ c.substitute e = some e' →
      A (exprItems e) (exprItems e') := by
    rintro e e' (rfl | h)
    · exact hA.refl _
    · obtain ⟨n, v, rfl, -⟩ := substitute_eq_some h
      exact hinline n e' h
  have hexpr : ∀ e e', c.pass.onExpr e = some e' →
      e'.name? = none ∧ A (exprItems e) (exprItems e') := by
    intro e e' h
    obtain ⟨l, r, p, hp, ⟨op, rfl, rfl⟩ | ⟨rfl, rfl⟩ | ⟨f, rfl, rfl⟩⟩ := onExpr_eq_some h
    · obtain ⟨hl, hr⟩ := substitutePair_eq_some hp
      exact ⟨rfl, hA.append (hone hl) (hone hr)⟩
    · obtain ⟨hl, hr⟩ := substitutePair_eq_some hp
      exact ⟨rfl, hA.append (hone hl) (hone hr)⟩
    · obtain ⟨hl, hr⟩ := substitutePair_eq_some hp
      exact ⟨rfl, hA.append (hA.refl [.call]) (hA.append (hA.refl _)
        (hA.append (hone hl) (hA.append (hone hr) (hA.refl []))))⟩
  refine ⟨hA, fun e e' h => (hexpr e e' h).1, fun e e' h => (hexpr e e' h).2, ?_, ?_⟩
  · intro s s' h
    cases s with
    | assign id targets values =>
        rcases assign_eq_some h with ⟨hall, rfl⟩ | ⟨t, v, v', rfl, rfl, hv, rfl⟩
        · have hitems : stmtItems (.assign id targets values)
              = [.bind (.assign id targets values) (exprsItems values)] := by
            rw [stmtItems, targetsItems_of_declaredBy hall, List.append_nil]
          rw [hitems]
          exact hpromote id targets values (targets_ne_nil_of_assign h) hall
        · exact hA.bind (.hook h)
            (hA.append (hA.append (hone (.inr hv)) (hA.refl [])) (hA.refl _))
    | call f args =>
        obtain ⟨a, ha, rfl⟩ := Option.map_eq_some_iff.mp h
        have hcall : c.pass.onExpr (.call f args) = some (.call a.1 a.2) :=
          Option.map_eq_some_iff.mpr ⟨a, ha, rfl⟩
        exact (hexpr _ _ hcall).2
    | _ => contradiction
  · intro b b' h
    obtain rfl := block_eq_some h
    clear h
    induction b with
    | nil => exact hA.refl _
    | cons s b ih =>
        cases hs : c.isDeadStmt s with
        | true =>
            rw [List.filter_cons_of_neg (by simp [hs])]
            exact hA.append (hdrop s hs) ih
        | false =>
            rw [List.filter_cons_of_pos (by simp [hs])]
            exact hA.append (hA.refl _) ih

end Context

variable {options : Options} {b : Block} {heavy : String → Bool}

theorem map_name_filterMap {c : Context} {id : NodeId} {targets : List Expr}
    (h : ∀ t ∈ targets, c.declaredBy id t = true) :
    (targets.filterMap Expr.name?).map .name = targets := by
  induction targets with
  | nil => rfl
  | cons t targets ih =>
      obtain ⟨ht, htargets⟩ := List.forall_mem_cons.mp h
      obtain ⟨n, v, rfl, -⟩ := Context.declaredBy_eq_true ht
      rw [List.filterMap_cons]
      exact congrArg (_ :: ·) (ih htargets)

theorem width_promoted {c : Context} {id : NodeId} {targets values : List Expr}
    (h : ∀ t ∈ targets, c.declaredBy id t = true) :
    (Stmt.declare id (targets.filterMap Expr.name?) values).width
      = (Stmt.assign id targets values).width := by
  rw [Stmt.width, Stmt.width]
  conv_rhs => rw [← map_name_filterMap h, List.length_map]

theorem itemsUses_subset_of_mem {c : Stmt → Bool} {e : Expr} {es : List Expr} (h : e ∈ es) :
    itemsUses c (exprItems e) ⊆ itemsUses c (exprsItems es) := by
  induction es with
  | nil => contradiction
  | cons e' es ih =>
      rw [exprsItems, itemsUses_append]
      rcases List.mem_cons.mp h with rfl | h
      · exact List.subset_append_left ..
      · exact List.Subset.trans (ih h) (List.subset_append_right ..)

/-- What is used in a value is used in the statement that binds it. -/
theorem itemsUses_subset_content {c : Stmt → Bool} {q : Stmt × List Item} {n : String} {id : NodeId}
    {v : Expr} (hq : stmtItems q.1 = [.bind q.1 q.2]) (hbind : .bind n id (some v) ∈ q.1.bound) :
    itemsUses c (exprItems v) ⊆ itemsUses c q.2 := by
  obtain ⟨s, content⟩ := q
  cases s with
  | declare id' names values =>
      obtain ⟨-, hv⟩ := mem_bound_declare.mp hbind
      cases hq
      exact itemsUses_subset_of_mem (mem_of_paired hv)
  | assign id' targets values =>
      obtain ⟨-, hv⟩ := mem_bound_assign.mp hbind
      cases hq
      change _ ⊆ itemsUses c (exprsItems values ++ targetsItems targets)
      rw [itemsUses_append]
      exact List.Subset.trans (itemsUses_subset_of_mem (mem_of_paired hv))
        (List.subset_append_left ..)
  | _ => contradiction

/-- What is inlined for a name that is not heavy is not heavy. -/
theorem heavy_of_substitute (h : Balanced options heavy b.items) {n : String} {v : Expr}
    (hv : (Context.mk options b.usage).substitute (.name n) = some v)
    (hheavy : HasHeavy heavy (exprItems v)) : heavy n = true := by
  obtain ⟨q, hq, id, hbind⟩ := Context.exists_binder_of_substitute hv
  obtain ⟨m, var, hm, htemp, -, hinline⟩ := Context.substitute_eq_some hv
  cases hm
  exact h q hq n id v hbind (Context.isTemporary_of_temporary htemp)
    (Context.isMovable_of_inlinable hinline)
    (hheavy.imp fun u hu =>
      ⟨itemsUses_subset_content ((recorded_block b).content q hq) hbind hu.1, hu.2⟩)

theorem hasHeavy_read {n : String} : HasHeavy heavy [.read n] ↔ heavy n = true := by
  simp [HasHeavy, allUses, itemsUses, Item.uses, Use.isHeavy]

theorem tidy (h : Balanced options heavy b.items) :
    Tidy heavy (Context.mk options b.usage).pass where
  name e e' h := by
    obtain ⟨l, r, p, hp, ⟨op, rfl, rfl⟩ | ⟨rfl, rfl⟩ | ⟨f, rfl, rfl⟩⟩ := Context.onExpr_eq_some h <;>
      rfl
  movable e e' h hmovable := by
    obtain ⟨l, r, p, hp, ⟨op, rfl, rfl⟩ | ⟨rfl, rfl⟩ | ⟨f, rfl, rfl⟩⟩ := Context.onExpr_eq_some h
    · rfl
    · -- only names are replaced
      obtain ⟨hl, hr⟩ := Context.substitutePair_eq_some hp
      have hone : ∀ {x y : Expr}, y = x ∨ (Context.mk options b.usage).substitute x = some y →
          y.name?.isSome → ∃ n, x = .name n := by
        rintro x y (rfl | hy) hname
        · obtain ⟨n, hn⟩ := Option.isSome_iff_exists.mp hname
          exact ⟨n, eq_name_of_name? hn⟩
        · obtain ⟨n, -, rfl, -⟩ := Context.substitute_eq_some hy
          exact ⟨n, rfl⟩
      have hnames : p.1.name?.isSome ∧ p.2.name?.isSome := by
        unfold Expr.isMovable at hmovable
        split at hmovable <;> simp_all [Expr.name?]
      obtain ⟨k, rfl⟩ := hone hl hnames.1
      obtain ⟨m, rfl⟩ := hone hr hnames.2
      rfl
    · contradiction
  assign id t v v' hs _ := by
    have hanswer : (Context.mk options b.usage).assign id [t] [v] = some (.assign id [t] [v']) := hs
    rcases Context.assign_eq_some hanswer with ⟨-, heq⟩ | ⟨t', w, w', ht, hw, hsub, heq⟩
    · contradiction
    · cases ht
      cases hw
      cases heq
      obtain ⟨n, var, rfl, -⟩ := Context.substitute_eq_some hsub
      refine ⟨rfl, ?_⟩
      rintro m' rfl
      exact ⟨n, rfl, fun hm' => heavy_of_substitute h hsub (hasHeavy_read.mpr hm')⟩

theorem follows_narrows (h : Balanced options heavy b.items) :
    Follows (Context.mk options b.usage).pass (Narrows heavy) := by
  refine Context.follows (tidy h).congruent ?_ ?_ ?_
  · intro n v hv
    refine .of_flat (Context.flat_of_substitute hv) ?_
    exact fun hheavy => hasHeavy_read.mpr (heavy_of_substitute h hv hheavy)
  · intro id targets values _ hall
    refine .bind (fun hxs => ?_) (.refl _)
    refine ⟨width_promoted hall, rfl, fun n id' v hbind hv => ?_, hxs.heavy⟩
    obtain ⟨rfl, hmem⟩ := mem_bound_declare.mp hbind
    refine ⟨v, mem_bound_assign.mpr ⟨rfl, ?_⟩, hv, fun m hm => ⟨m, hm, fun h => h⟩⟩
    rw [mem_paired_some] at hmem ⊢
    rw [← map_name_filterMap hall, List.length_map, List.zip_map_left]
    exact ⟨hmem.1, List.mem_map.mpr ⟨(n, v), hmem.2, rfl⟩⟩
  · intro s _
    refine .of_flat rfl ?_
    rintro ⟨u, hu, -⟩
    contradiction

end Temporaries

/-! ## Walks -/

section

variable {options : Options} {b : Block} {heavy : String → Bool}

theorem narrows_folding (b : Block) : Narrows heavy b.items (Folding.pass.walk b).1.items :=
  (Folding.follows (Folding.tidy heavy).congruent).walk .trans b

/-- Bindings stem from bindings all through a walk over temporaries. -/
theorem narrows_temporaries (h : Balanced options heavy b.items) :
    Narrows heavy b.items ((Context.mk options b.usage).pass.walk b).1.items :=
  (Temporaries.follows_narrows h).walk .trans b

/-- A statement of one name that binds it to a value holds nothing else. -/
theorem content_of_width {n : String} {id : NodeId} {v : Expr} {q : Stmt × List Item}
    (hq : q ∈ itemsBinders b.items) (hwidth : q.1.width = 1)
    (hbind : .bind n id (some v) ∈ q.1.bound) : q.1.names = [n] ∧ q.2 = exprItems v := by
  have hcontent := (recorded_block b).content q hq
  obtain ⟨s, content⟩ := q
  rcases eq_of_width hwidth hbind with rfl | rfl
  · cases hcontent
    exact ⟨rfl, List.append_nil _⟩
  · cases hcontent
    exact ⟨rfl, (List.append_nil _).trans (List.append_nil _)⟩

/-! ## What is inlined -/

theorem moves_of_substitute {n : String} {v : Expr}
    (hv : (Context.mk options b.usage).substitute (.name n) = some v) : Moves options n b.items := by
  obtain ⟨q, hq, id, hbind⟩ := Context.exists_binder_of_substitute hv
  obtain ⟨m, var, hm, htemp, -, hinline⟩ := Context.substitute_eq_some hv
  cases hm
  exact ⟨Context.isTemporary_of_temporary htemp, q, hq, id, v, hbind,
    Context.isMovable_of_inlinable hinline⟩

/-- Where bindings are apart, what is inlined for a name is all there is in one of the statements that
bind it. -/
theorem Apart.binder {names : String → Bool} (h : Apart options names b.items) {n : String}
    (hn : names n = true) {v : Expr}
    (hv : (Context.mk options b.usage).substitute (.name n) = some v) : Lone n b.items ∧
      ∃ s id, (s, exprItems v) ∈ itemsBinders b.items ∧ .bind n id (some v) ∈ s.bound := by
  have hlone := h n hn (moves_of_substitute hv)
  obtain ⟨⟨s, content⟩, hq, id, hbind⟩ := Context.exists_binder_of_substitute hv
  obtain ⟨-, rfl⟩ := content_of_width hq (hlone _ hq (mem_names hbind)) hbind
  exact ⟨hlone, s, id, hq, hbind⟩

end

end Devirt
