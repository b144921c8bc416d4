import Devirt.Proofs.BindingOrder
import Devirt.Proofs.Prices
import Devirt.Proofs.Settled
import Mathlib.Order.FixedPoints

set_option autoImplicit false

/-! # Calls that are not copied

A value is inlined where its name is read, and its declaration stays until a later walk drops it.  In
between there are two copies of every call in it, one of which is about to go: the name is *spare*, as
it is only read in the declarations of spare names.  Outside of these no walk makes more calls
(`weigh_spare_walk`), as long as a name that leads to a call is read only once where it stands for
another name, and is bound by statements that go with it, as they bind no other name.  When a run has
converged no spare name is bound any more, so then there are no more calls than there were
(`simplify_calls_le`). -/

namespace Devirt

open Usage Temporaries

/-! ## Spare names -/

/-- Nothing binds in the statement but itself. -/
def Stmt.IsFlat (s : Stmt) : Prop := (itemsBinders (stmtItems s)).length ≤ 1

open Classical in
/-- The statement is flat and binds a single name, one of the set. -/
noncomputable def Stmt.bindsIn (X : Set String) (s : Stmt) : Bool :=
  decide (s.width = 1 ∧ s.IsFlat ∧ ∃ n ∈ s.names, n ∈ X)

/-- The temporary is bound by statements that bind nothing else, and only one of them may assign it. -/
structure Solo (options : Options) (xs : List Item) (n : String) : Prop where
  temporary : isTemporary options n = true
  lone : Lone n xs
  assigned : (itemsBindings n xs).countP (!·.declares) ≤ 1

/-- The names of `E` that are read only by statements that bind a name of `X`. -/
def unreadBeside (E : Set String) (xs : List Item) (X : Set String) : Set String :=
  {n | n ∈ E ∧ n ∉ namesRead (itemsUses (Stmt.bindsIn X) xs)}

section

variable {options : Options} {heavy : String → Bool} {b : Block} {E E' X Y : Set String}
  {xs ys : List Item} {s : Stmt} {n : String}

theorem bindsIn_eq_true :
    s.bindsIn X = true ↔ s.width = 1 ∧ s.IsFlat ∧ ∃ n ∈ s.names, n ∈ X := by
  simp only [Stmt.bindsIn, decide_eq_true_eq]

theorem bindsIn_mono (h : X ⊆ Y) (hs : s.bindsIn X = true) : s.bindsIn Y = true := by
  rw [bindsIn_eq_true] at hs ⊢
  obtain ⟨hwidth, hflat, n, hn, hX⟩ := hs
  exact ⟨hwidth, hflat, n, hn, h hX⟩

theorem mem_of_bindsIn (h : s.bindsIn X = true) (hn : n ∈ s.names) : n ∈ X := by
  obtain ⟨hwidth, -, m, hm, hX⟩ := bindsIn_eq_true.mp h
  rw [names_of_width hwidth hn, List.mem_singleton] at hm
  rwa [← hm]

/-- The relation between outlines that there are no more statements that bind. -/
def NoMoreBinders (xs ys : List Item) : Prop := (itemsBinders ys).length ≤ (itemsBinders xs).length

theorem congruent_noMoreBinders (p : Pass) : Congruent p NoMoreBinders where
  refl _ := le_rfl
  append h h' := by
    rw [NoMoreBinders, itemsBinders_append, itemsBinders_append, List.length_append,
      List.length_append]
    exact Nat.add_le_add h h'
  bind _ h := by
    simp only [NoMoreBinders, itemsBinders, Item.binders, List.append_nil, List.length_cons]
    exact Nat.succ_le_succ h

theorem follows_noMoreBinders (c : Context) : Follows c.pass NoMoreBinders := by
  refine Context.follows (congruent_noMoreBinders _) (fun n v hv => ?_) (fun _ _ _ _ _ => le_rfl)
    fun _ _ => Nat.zero_le _
  rw [NoMoreBinders, Context.flat_of_substitute hv]
  exact Nat.zero_le _

/-- What is covered stays covered. -/
theorem bindsIn_revised {p : Pass} (hp : Tidy heavy p) (hfollows : Follows p NoMoreBinders)
    {s' : Stmt} (h : Revised p s s') (hs : s.bindsIn X = true) : s'.bindsIn X = true := by
  have hstems := hp.stems h (.refl [])
  have hflat : NoMoreBinders (stmtItems s) (stmtItems s') := by
    cases h with
    | declare h => exact hfollows.stmt_step (.declare h)
    | targets h => exact hfollows.stmt_step (.assignTargets h)
    | values h => exact hfollows.stmt_step (.assignValues h)
    | hook h => exact hfollows.stmt_step (.hook h)
  rw [bindsIn_eq_true] at hs ⊢
  rw [hstems.width, hstems.names]
  exact ⟨hs.1, hflat.trans hs.2.1, hs.2.2⟩

theorem bindsIn_temporaries (b : Block) {s' : Stmt}
    (h : Revised (Context.mk options b.usage).pass s s') (hs : s.bindsIn X = true) :
    s'.bindsIn X = true :=
  bindsIn_revised (Temporaries.tidy (balanced_true options b.items)) (follows_noMoreBinders _) h hs

theorem bindsIn_folding {s' : Stmt} (h : Revised Folding.pass s s') (hs : s.bindsIn X = true) :
    s'.bindsIn X = true :=
  bindsIn_revised (Folding.tidy fun _ => true) (Folding.follows (congruent_noMoreBinders _)) h hs

/-- What is covered stays covered when it becomes a declaration. -/
theorem bindsIn_promoted {c : Context} {id : NodeId} {targets values : List Expr}
    (h : ∀ t ∈ targets, c.declaredBy id t = true)
    (hs : (Stmt.assign id targets values).bindsIn X = true) :
    (Stmt.declare id (targets.filterMap Expr.name?) values).bindsIn X = true := by
  rw [bindsIn_eq_true] at hs ⊢
  refine ⟨(width_promoted h).trans hs.1, ?_, hs.2.2⟩
  have hflat := hs.2.1
  rw [Stmt.IsFlat, stmtItems, Context.targetsItems_of_declaredBy h, List.append_nil] at hflat
  exact hflat

theorem isFlat_iff {q : Stmt × List Item} (hq : q ∈ itemsBinders b.items) :
    q.1.IsFlat ↔ itemsBinders q.2 = [] := by
  rw [Stmt.IsFlat, (recorded_block b).content q hq, itemsBinders, itemsBinders, Item.binders,
    List.append_nil, List.length_cons, ← List.length_eq_zero_iff]
  omega

/-- Nothing binds in what is covered. -/
theorem flat_of_bindsIn {q : Stmt × List Item} (hq : q ∈ itemsBinders b.items)
    (h : q.1.bindsIn X = true) : itemsBinders q.2 = [] :=
  (isFlat_iff hq).mp (bindsIn_eq_true.mp h).2.1

theorem unreadBeside_mono (h : X ⊆ Y) : unreadBeside E xs X ⊆ unreadBeside E xs Y := by
  rintro n ⟨hE, hn⟩
  have hsub : (itemsUses (Stmt.bindsIn Y) xs).Sublist (itemsUses (Stmt.bindsIn X) xs) :=
    itemsUses_sublist fun _ _ => bindsIn_mono h
  exact ⟨hE, fun hc => hn ((hsub.filterMap Use.read?).subset hc)⟩

/-- The names that are read, if at all, by statements that bind such names, one below the other. -/
def spare (E : Set String) (xs : List Item) : Set String :=
  OrderHom.lfp ⟨unreadBeside E xs, fun _ _ => unreadBeside_mono⟩

theorem mem_spare : n ∈ spare E xs ↔
    n ∈ E ∧ n ∉ namesRead (itemsUses (Stmt.bindsIn (spare E xs)) xs) := by
  conv_lhs => rw [spare, ← OrderHom.map_lfp]
  rfl

/-- What holds of no name holds of all spare names, if it goes from the names `X` to those that are
read beside them only. -/
theorem spare_subset_of {T : Set String}
    (h : ∀ X, X ⊆ T → X ⊆ unreadBeside E xs X → unreadBeside E xs X ⊆ T) : spare E xs ⊆ T := by
  have hboth : spare E xs ⊆ T ∧ spare E xs ⊆ unreadBeside E xs (spare E xs) := by
    refine OrderHom.lfp_induction (p := fun X => X ⊆ T ∧ X ⊆ unreadBeside E xs X) _ ?_ ?_
    · intro X hX _
      exact ⟨h X hX.1 hX.2, unreadBeside_mono hX.2⟩
    · intro S hS
      constructor
      · exact Set.sUnion_subset fun X hX => (hS X hX).1
      · refine Set.sUnion_subset fun X hX => ?_
        exact (hS X hX).2.trans (unreadBeside_mono (Set.subset_sUnion_of_mem hX))
  exact hboth.1

theorem spare_mono (h : E ⊆ E') : spare E xs ⊆ spare E' xs := by
  refine spare_subset_of fun X hX _ n hn => mem_spare.mpr ⟨h hn.1, ?_⟩
  exact (unreadBeside_mono hX hn).2

/-! ## Spare names stay spare -/

theorem solo_of_thins {P : String → NodeId → Prop} (h : Narrows heavy xs ys) (hthins : Thins P xs ys)
    (hn : Solo options xs n) : Solo options ys n :=
  ⟨hn.temporary, h.lone hn.lone, (hthins.assigned_le n).trans hn.assigned⟩

/-- None of the names `K` is read outside of the statements that bind a name of `X`. -/
def Unread (K X : Set String) (xs : List Item) : Prop :=
  ∀ k ∈ K, k ∉ namesRead (itemsUses (Stmt.bindsIn X) xs)

theorem unread_append {K : Set String} :
    Unread K X (xs ++ ys) ↔ Unread K X xs ∧ Unread K X ys := by
  simp only [Unread, itemsUses_append, namesRead_append, List.mem_append, not_or, forall_and]

theorem unread_bind {K : Set String} :
    Unread K X [.bind s xs] ↔ (s.bindsIn X = false → Unread K X xs) := by
  simp only [Unread, itemsUses_bind, namesRead_append, namesRead_bound, List.nil_append]
  cases s.bindsIn X with
  | true => simp [namesRead]
  | false => simp

/-- That names stay unread goes into statements, if what is covered stays so. -/
theorem Unread.bind {K : Set String} {s' : Stmt}
    (hcovered : s.bindsIn X = true → s'.bindsIn X = true) (h : Unread K X xs → Unread K X ys)
    (hs : Unread K X [.bind s xs]) : Unread K X [.bind s' ys] := by
  rw [unread_bind] at hs ⊢
  intro hs'
  refine h (hs ?_)
  by_contra hc
  rw [hcovered (by simpa using hc)] at hs'
  contradiction

/-- In a walk, names that are read beside `X` only are not read elsewhere later. -/
theorem unreadBeside_walk (hX : X ⊆ unreadBeside E b.items X) : unreadBeside E b.items X ⊆
      unreadBeside E ((Context.mk options b.usage).pass.walk b).1.items X := by
  have hfollows : Follows (Context.mk options b.usage).pass fun xs ys =>
      Unread (unreadBeside E b.items X) X xs → Unread (unreadBeside E b.items X) X ys := by
    refine Context.follows ⟨fun _ h => h, ?_, ?_⟩ ?_ ?_ ?_
    · intro xs ys xs' ys' h h' hunread
      rw [unread_append] at hunread ⊢
      exact ⟨h hunread.1, h' hunread.2⟩
    · exact fun hs => Unread.bind (bindsIn_temporaries b hs)
    · -- what is inlined is read where the name is bound, and that is not covered
      intro n v hv hunread k hk hread
      obtain ⟨q, hq, id, hbound⟩ := Context.exists_binder_of_substitute hv
      have hcovered : q.1.bindsIn X = false := by
        by_contra hc
        have hn := hX (mem_of_bindsIn (by simpa using hc) (mem_names hbound))
        exact hunread n hn (mem_namesRead.mpr List.mem_cons_self)
      have hsub := uses_subset_items (c := Stmt.bindsIn X) b.items hq fun _ => flat_of_bindsIn
      rw [Item.uses_bind, hcovered] at hsub
      have hcontent := itemsUses_subset_content (c := Stmt.bindsIn X)
        ((recorded_block b).content q hq) hbound
      refine hk.2 (namesRead_subset (List.Subset.trans hcontent ?_) hread)
      exact List.Subset.trans (List.subset_append_right ..) hsub
    · exact fun id targets values _ hall => Unread.bind (bindsIn_promoted hall) fun h => h
    · intro s _ _ k _ hread
      contradiction
  intro n hn
  have hunread := hfollows.walk (fun h h' hc => h' (h hc)) b fun k hk => hk.2
  exact ⟨hn.1, hunread n hn⟩

theorem spare_walk :
    spare E b.items ⊆ spare E ((Context.mk options b.usage).pass.walk b).1.items := by
  refine spare_subset_of fun X hspare hX n hn => mem_spare.mpr ⟨hn.1, ?_⟩
  exact (unreadBeside_mono hspare (unreadBeside_walk hX hn)).2

/-! ## One walk -/

open Classical in
/-- The name that is bound to what is inlined for it. -/
noncomputable def Use.inlined? (c : Context) : Use → Option String
  | .bind n _ (some v) => if c.substitute (.name n) = some v then some n else none
  | _ => none

/-- The names that are bound to what is inlined for them. -/
noncomputable def namesInlined (c : Context) (us : List Use) : List String :=
  us.filterMap (Use.inlined? c)

theorem namesInlined_append (c : Context) (us vs : List Use) :
    namesInlined c (us ++ vs) = namesInlined c us ++ namesInlined c vs :=
  List.filterMap_append

theorem mem_namesInlined {c : Context} {us : List Use} :
    n ∈ namesInlined c us ↔ ∃ id v, .bind n id (some v) ∈ us ∧ c.substitute (.name n) = some v := by
  rw [namesInlined, List.mem_filterMap]
  constructor
  · rintro ⟨u, hu, hn⟩
    unfold Use.inlined? at hn
    split at hn
    · rw [Option.ite_none_right_eq_some] at hn
      obtain ⟨hv, hn⟩ := hn
      cases hn
      exact ⟨_, _, hu, hv⟩
    · contradiction
  · rintro ⟨id, v, hu, hv⟩
    exact ⟨_, hu, if_pos hv⟩

theorem namesInlined_sublist (c : Context) (us : List Use) :
    (namesInlined c us).Sublist (namesBound us) := by
  induction us with
  | nil => exact .refl _
  | cons u us ih =>
      rw [namesInlined, namesBound, List.filterMap_cons, List.filterMap_cons]
      cases u with
      | call | read m => exact ih
      | bind m id v =>
          rw [Use.bound?]
          split
          · exact ih.cons m
          · rename_i k hk
            cases v with
            | none => contradiction
            | some v =>
                rw [Use.inlined?, Option.ite_none_right_eq_some] at hk
                cases hk.2
                exact ih.cons_cons m

section

variable {call : Nat} {read ω : String → Nat}
  (hω : Pays (Context.mk options b.usage) (fun n => heavy n = true) call read ω)

include hω

/-- What is not heavy costs nothing. -/
theorem weigh_of_light (hread : ∀ n, heavy n = false → read n = 0)
    (h : ¬ HasHeavy heavy xs) : weigh (price call (read + ω) 0) (allUses xs) = 0 := by
  refine weigh_eq_zero fun u hu => ?_
  have hlight : u.isHeavy heavy = false := by
    by_contra hc
    exact h ⟨u, hu, by simpa using hc⟩
  cases u with
  | call => contradiction
  | read m =>
      have hω : ω m = 0 := by
        by_contra hne
        rw [show Use.isHeavy heavy (.read m) = true from (hω.only m hne).1] at hlight
        contradiction
      change read m + ω m = 0
      rw [hread m hlight, hω]
  | bind => rfl

/-- What is inlined costs no more than what it stands for. -/
theorem weigh_walk_le (hbal : Balanced options heavy b.items)
    (hread : ∀ n, heavy n = false → read n = 0) (X : Set String) :
    weigh (price call (read + ω) 0)
        (itemsUses (Stmt.bindsIn X) ((Context.mk options b.usage).pass.walk b).1.items) ≤
      weigh (price call (read + ω) 0) (itemsUses (Stmt.bindsIn X) b.items) := by
  have hfollows : Follows (Context.mk options b.usage).pass fun xs ys =>
      weigh (price call (read + ω) 0) (itemsUses (Stmt.bindsIn X) ys) ≤
        weigh (price call (read + ω) 0) (itemsUses (Stmt.bindsIn X) xs) := by
    refine Context.follows (congruent_weigh_le fun s s' => bindsIn_temporaries b) ?_ ?_ ?_
    · intro n v hv
      rw [itemsUses_of_binders (Context.flat_of_substitute hv)]
      change _ ≤ read n + ω n
      cases hn : heavy n with
      | true =>
          rw [← hω.inlined n v hv hn]
          exact Nat.le_add_left ..
      | false =>
          -- nothing heavy is inlined for a name that is not heavy
          have hlight : ¬ HasHeavy heavy (exprItems v) := fun hc => by
            rw [Temporaries.heavy_of_substitute hbal hv hc] at hn
            contradiction
          rw [weigh_of_light hω hread hlight]
          exact Nat.zero_le _
    · intro id targets values _ hall
      exact weigh_bind_le (bindsIn_promoted hall) le_rfl
    · intro s _
      exact Nat.zero_le _
  exact hfollows.walk (fun h h' => h'.trans h) b

/-- The statements of names that become spare pay for these. -/
theorem weigh_newly_spare (hapart : Apart options heavy b.items) (hXY : X ⊆ Y) :
    weigh (price call (read + ω) 0) (itemsUses (Stmt.bindsIn Y) b.items) +
        ((namesInlined (Context.mk options b.usage) (itemsUses (Stmt.bindsIn Y) b.items)).map
          ((Y \ X).indicator ω)).sum ≤
      weigh (price call (read + ω) 0) (itemsUses (Stmt.bindsIn X) b.items) := by
  have hnone : ∀ {us}, (∀ n ∈ namesInlined (Context.mk options b.usage) us, (Y \ X).indicator ω n = 0) →
      weigh (price call (read + ω) 0) us + ((namesInlined (Context.mk options b.usage) us).map
        ((Y \ X).indicator ω)).sum ≤ weigh (price call (read + ω) 0) us := by
    intro us hus
    rw [List.map_congr_left hus]
    simp
  refine reveal_items (R := fun us vs => weigh (price call (read + ω) 0) vs +
    ((namesInlined (Context.mk options b.usage) vs).map ((Y \ X).indicator ω)).sum ≤
      weigh (price call (read + ω) 0) us) ?_ ?_ _ ?_ ?_ fun q _ => bindsIn_mono hXY
  · intro us hus
    refine hnone fun n hn => ?_
    have hbound := (namesInlined_sublist _ us).subset hn
    rw [namesBound, hus] at hbound
    contradiction
  · intro us vs us' vs' h h'
    rw [weigh_append, weigh_append, namesInlined_append, List.map_append, List.sum_append]
    omega
  · -- a statement of such a name costs as much as the name, if the name gives way to its value
    intro q hq hX hY
    obtain ⟨hwidth, -, n, hn, hnY⟩ := bindsIn_eq_true.mp hY
    have hsub := namesInlined_sublist (Context.mk options b.usage) q.1.bound
    rw [namesBound_bound, names_of_width hwidth hn, List.sublist_singleton] at hsub
    rw [weigh_append]
    refine Nat.add_le_add_left ?_ _
    rcases hsub with hnil | hone
    · rw [hnil]
      exact Nat.zero_le _
    · have hmem : n ∈ namesInlined (Context.mk options b.usage) q.1.bound := by
        rw [hone]
        exact List.mem_singleton_self n
      obtain ⟨id, v, hbind, hv⟩ := mem_namesInlined.mp hmem
      obtain ⟨-, hcontent⟩ := content_of_width hq hwidth hbind
      rw [hone, List.map_singleton, List.sum_singleton, hcontent,
        itemsUses_of_binders (Context.flat_of_substitute hv)]
      refine (Set.indicator_le_self (Y \ X) ω n).trans ?_
      by_cases hne : ω n = 0
      · rw [hne]
        exact Nat.zero_le _
      · exact (hω.inlined n v hv (hω.only n hne).1).le
  · -- and no other statement binds one to what is inlined for it
    intro q hq hsame
    refine hnone fun n hn => ?_
    by_contra hne
    obtain ⟨hnYX, hne⟩ := Set.indicator_apply_ne_zero.mp hne
    obtain ⟨id, v, hbind, hv⟩ := mem_namesInlined.mp hn
    obtain ⟨hlone, -⟩ := hapart.binder (hω.only n hne).1 hv
    have hwidth := hlone q hq (mem_names hbind)
    obtain ⟨-, hcontent⟩ := content_of_width hq hwidth hbind
    have hflat : q.1.IsFlat := by
      rw [isFlat_iff hq, hcontent]
      exact Context.flat_of_substitute hv
    have hY : q.1.bindsIn Y = true :=
      bindsIn_eq_true.mpr ⟨hwidth, hflat, n, mem_names hbind, hnYX.1⟩
    rw [← hsame] at hY
    exact hnYX.2 (mem_of_bindsIn hY (mem_names hbind))

end

/-- The temporaries that can be spare. -/
def soloNames (options : Options) (xs : List Item) : Set String := {n | Solo options xs n}

/-- The outline outside of the statements that bind spare names. -/
noncomputable def usesBesideSpare (options : Options) (b : Block) : List Use :=
  itemsUses (Stmt.bindsIn (spare (soloNames options b.items) b.items)) b.items

/-- A temporary that stands for a heavy name is read at one place at most, besides those in statements
that bind spare names. -/
def ReadOnce (options : Options) (heavy : String → Bool) (b : Block) : Prop :=
  ∀ q ∈ itemsBinders b.items, ∀ n id m, .bind n id (some (.name m)) ∈ q.1.bound →
    isTemporary options n = true → heavy m = true →
    (namesRead (usesBesideSpare options b)).count n ≤ 1

theorem solo_of_substitute (hapart : Apart options heavy b.items) {v : Expr}
    (hn : heavy n = true) (hv : (Context.mk options b.usage).substitute (.name n) = some v) :
    Solo options b.items n := by
  obtain ⟨hlone, -⟩ := hapart.binder hn hv
  obtain ⟨m, var, hm, htemp, -, -⟩ := Context.substitute_eq_some hv
  cases hm
  refine ⟨Context.isTemporary_of_temporary htemp, hlone, ?_⟩
  -- all bindings but the first declare the name
  obtain ⟨β, βs, heq, hdeclares⟩ := Context.bindings_of_substitute hlone hv
  have hzero : βs.countP (!·.declares) = 0 := by
    rw [List.countP_eq_zero]
    exact fun γ hγ => by simp [hdeclares γ hγ]
  rw [heq, List.countP_cons, hzero]
  split <;> omega

/-- A name is not read more often than it is worth. -/
theorem count_le_one (honce : ReadOnce options heavy b) {v : Expr}
    (hv : (Context.mk options b.usage).substitute (.name n) = some v)
    (hheavy : HasHeavy heavy (exprItems v)) :
    (namesRead (usesBesideSpare options b)).count n ≤ 1 := by
  obtain ⟨m', var, hm', htemp, -, -⟩ := Context.substitute_eq_some hv
  cases hm'
  cases hname : v.name? with
  | none =>
      have hsub := (itemsUses_sublist_allUses (Stmt.bindsIn (spare (soloNames options b.items)
        b.items)) b.items).filterMap Use.read?
      exact (hsub.count_le n).trans (Context.count_of_substitute hv hname).le
  | some m =>
      obtain rfl := eq_name_of_name? hname
      obtain ⟨q, hq, id, hbind⟩ := Context.exists_binder_of_substitute hv
      exact honce q hq n id m hbind (Context.isTemporary_of_temporary htemp)
        (Temporaries.hasHeavy_read.mp hheavy)

/-- Later there may be more spare names than those that were read beside others before. -/
theorem weigh_usesBesideSpare_le {φ : Use → Nat} {P : String → NodeId → Prop} {b' : Block}
    (h : Narrows heavy b.items b'.items) (hthins : Thins P b.items b'.items)
    (hX : X ⊆ spare (soloNames options b.items) b'.items) :
    weigh φ (usesBesideSpare options b') ≤ weigh φ (itemsUses (Stmt.bindsIn X) b'.items) :=
  weigh_sublist (itemsUses_sublist fun _ _ =>
    bindsIn_mono (hX.trans (spare_mono fun _ hn => solo_of_thins h hthins hn)))

section

variable {call : Nat} {read ω : String → Nat}
  (hω : Pays (Context.mk options b.usage) (fun n => heavy n = true) call read ω)
  (hapart : Apart options heavy b.items) (honce : ReadOnce options heavy b)
  (hread : ∀ n, heavy n = false → read n = 0)

include hω hapart honce hread

/-- Whatever block `b'` comes after `b`, a read of a name that costs something is a read there, or the
name is newly spare. -/
theorem count_reads_le (b' : Block) (hn : ω n ≠ 0) :
    (namesRead (usesBesideSpare options b)).count n ≤
      (spare (soloNames options b.items) b'.items \
          spare (soloNames options b.items) b.items).indicator (fun n => (namesInlined
        (Context.mk options b.usage) (itemsUses (Stmt.bindsIn (spare (soloNames options b.items)
          b'.items)) b.items)).count n) n +
      (namesRead (itemsUses (Stmt.bindsIn (spare (soloNames options b.items) b'.items))
        b'.items)).count n := by
  obtain ⟨hheavy, v, hv⟩ := hω.only n hn
  have hheavyValue : HasHeavy heavy (exprItems v) := by
    by_contra hlight
    refine hn ?_
    rw [hω.inlined n v hv hheavy, weigh_of_light hω hread hlight]
  have hone := count_le_one honce hv hheavyValue
  by_cases hnone : (namesRead (usesBesideSpare options b)).count n = 0
  · rw [hnone]
    exact Nat.zero_le _
  · have hmem : n ∈ namesRead (usesBesideSpare options b) :=
      List.count_pos_iff.mp (Nat.pos_of_ne_zero hnone)
    have hsolo := solo_of_substitute hapart hheavy hv
    have hold : n ∉ spare (soloNames options b.items) b.items := fun hc =>
      (mem_spare.mp hc).2 hmem
    by_cases hnew : n ∈ spare (soloNames options b.items) b'.items
    · -- the statement that binds the name can be seen
      rw [Set.indicator_of_mem (Set.mem_sdiff_of_mem hnew hold)]
      obtain ⟨-, s, id, hs, hbind⟩ := hapart.binder hheavy hv
      have hsub := uses_subset_items
        (c := Stmt.bindsIn (spare (soloNames options b.items) b'.items)) b.items hs
        fun _ => flat_of_bindsIn
      have hseen := mem_namesInlined.mpr ⟨id, v, hsub (by
        rw [Item.uses_bind]
        exact List.mem_append_left _ hbind), hv⟩
      exact hone.trans ((List.count_pos_iff.mpr hseen).trans_le (Nat.le_add_right ..))
    · have hstill : n ∈ namesRead (itemsUses (Stmt.bindsIn
          (spare (soloNames options b.items) b'.items)) b'.items) := by
        by_contra hc
        exact hnew (mem_spare.mpr ⟨hsolo, hc⟩)
      exact hone.trans ((List.count_pos_iff.mpr hstill).trans_le (Nat.le_add_left ..))

end

/-- In a walk nothing becomes more outside of the statements that bind spare names, as long as only what
is heavy counts. -/
theorem weigh_spare_walk (hapart : Apart options heavy b.items)
    (hbal : Balanced options heavy b.items) (honce : ReadOnce options heavy b) (call : Nat)
    (read : String → Nat) (hread : ∀ n, heavy n = false → read n = 0) :
    weigh (price call read 0)
        (usesBesideSpare options ((Context.mk options b.usage).pass.walk b).1) ≤
      weigh (price call read 0) (usesBesideSpare options b) := by
  obtain ⟨ω, hω⟩ := exists_price options b (fun n => heavy n = true) call read
  obtain ⟨b', hb'⟩ : ∃ b', ((Context.mk options b.usage).pass.walk b).1 = b' := ⟨_, rfl⟩
  have hnarrows := narrows_temporaries hbal
  have hthins := thins_temporaries options b
  have hspare : spare (soloNames options b.items) b.items ⊆ spare (soloNames options b.items)
      ((Context.mk options b.usage).pass.walk b).1.items := spare_walk
  have hwalk := weigh_walk_le hω hbal hread (spare (soloNames options b.items) b'.items)
  rw [hb'] at hnarrows hthins hspare hwalk ⊢
  have hnew : _ ≤ weigh (price call (read + ω) 0) (usesBesideSpare options b) :=
    weigh_newly_spare hω hapart hspare
  have hpaid := sum_le_of_count_indicator fun n hn => count_reads_le hω hapart honce hread b' hn
  have hlater : weigh (price call read 0) (usesBesideSpare options b') ≤ weigh (price call read 0)
      (itemsUses (Stmt.bindsIn (spare (soloNames options b.items) b'.items)) b'.items) :=
    weigh_usesBesideSpare_le hnarrows hthins subset_rfl
  have hreads : weigh (price call (read + ω) 0) (usesBesideSpare options b) = _ := weigh_reads _
  rw [weigh_reads] at hwalk
  rw [hreads] at hnew
  omega

/-- Nor does it become more by folding. -/
theorem weigh_spare_folding (call : Nat) (read : String → Nat) :
    weigh (price call read 0) (usesBesideSpare options (Folding.pass.walk b).1) ≤
      weigh (price call read 0) (usesBesideSpare options b) := by
  have hfolding : ∀ X call read, weigh (price call read 0)
      (itemsUses (Stmt.bindsIn X) (Folding.pass.walk b).1.items) ≤
        weigh (price call read 0) (itemsUses (Stmt.bindsIn X) b.items) := by
    intro X call read
    have hfollows : Follows Folding.pass fun xs ys =>
        weigh (price call read 0) (itemsUses (Stmt.bindsIn X) ys) ≤
          weigh (price call read 0) (itemsUses (Stmt.bindsIn X) xs) :=
      Folding.follows (congruent_weigh_le fun s s' => bindsIn_folding)
    exact hfollows.walk (fun h h' => h'.trans h) b
  have hspare : spare (soloNames options b.items) b.items ⊆
      spare (soloNames options b.items) (Folding.pass.walk b).1.items := by
    refine spare_subset_of fun X hX _ n hn => mem_spare.mpr ⟨hn.1, fun hread => hn.2 ?_⟩
    have hbeside : n ∈ namesRead (itemsUses (Stmt.bindsIn X) (Folding.pass.walk b).1.items) := by
      have hsub := itemsUses_sublist fun q (_ : q ∈ itemsBinders (Folding.pass.walk b).1.items) =>
        bindsIn_mono (s := q.1) hX
      exact (hsub.filterMap Use.read?).subset hread
    have hcount := hfolding X 0 fun m => if m = n then 1 else 0
    rw [weigh_indicator, weigh_indicator] at hcount
    exact List.count_pos_iff.mp ((List.count_pos_iff.mpr hbeside).trans_le hcount)
  have hnarrows : Narrows (fun _ => true) b.items (Folding.pass.walk b).1.items := narrows_folding b
  calc weigh (price call read 0) (usesBesideSpare options (Folding.pass.walk b).1)
      ≤ weigh (price call read 0) (itemsUses (Stmt.bindsIn (spare (soloNames options b.items)
          b.items)) (Folding.pass.walk b).1.items) :=
        weigh_usesBesideSpare_le hnarrows (thins_folding (fun _ _ => True) b) hspare
    _ ≤ _ := hfolding _ call read

/-! ## Quiet walks -/

/-- A statement that binds a name shows it in the outline. -/
theorem exists_bound {q : Stmt × List Item} (hq : q ∈ itemsBinders b.items) (hn : n ∈ q.1.names) :
    ∃ id v, .bind n id v ∈ q.1.bound ∧ .bind n id v ∈ allUses b.items := by
  rw [← namesBound_bound] at hn
  obtain ⟨id, v, hbind⟩ := mem_namesBound.mp hn
  exact ⟨id, v, hbind, (bound_sublist b.items).subset (List.mem_flatMap_of_mem hq hbind)⟩

section

variable (hquiet : Walk.Progress.Quiet .start ((Context.mk options b.usage).pass.walk b).2)

include hquiet

/-- Where a walk is quiet, a lone name that is not read is not declared, as the declaration would be
dead. -/
theorem not_declared_of_quiet (hlone : Lone n b.items) (hread : n ∉ namesRead (allUses b.items)) :
    ∀ β ∈ itemsBindings n b.items, β.declares = false := by
  intro β hβ
  obtain ⟨⟨s, content⟩, hq, hβ⟩ := (mem_bindings_items b.items).mp hβ
  have hn : n ∈ s.names := by
    by_contra hc
    rw [binder?_of_notMem hc] at hβ
    contradiction
  cases s with
  | declare id names values =>
      obtain ⟨id', v, -, hbind⟩ := exists_bound hq hn
      obtain ⟨w, hget, hzero⟩ := reads_of_unread hread hbind
      have hdead : (Context.mk options b.usage).isDeadStmt (.declare id names values) = true := by
        rw [show names = [n] from names_of_width (hlone _ hq hn) hn]
        simp [Context.isDeadStmt, Context.isDead, hget, hzero]
      obtain ⟨-, b₁, hb₁, hblock⟩ := Pass.settled_of_quiet hquiet _ hq
      have hsome : (Context.mk options b.usage).block b₁ ≠ none := by
        rw [Context.block, if_pos (List.any_eq_true.mpr ⟨_, hb₁, hdead⟩)]
        exact Option.some_ne_none _
      exact absurd hblock hsome
  | assign id targets values =>
      rw [Stmt.binder?, if_pos hn] at hβ
      cases hβ
      rfl
  | _ => contradiction

/-- Nor is a temporary that could be spare bound at all, as its only assignment would become a
declaration. -/
theorem not_bound_of_quiet (hn : Solo options b.items n) (hread : n ∉ namesRead (allUses b.items)) :
    ∀ q ∈ itemsBinders b.items, n ∉ q.1.names := by
  have hassigns := not_declared_of_quiet hquiet hn.lone hread
  have honce : (namesBound (allUses b.items)).count n ≤ 1 := by
    have hall : (itemsBindings n b.items).countP (!·.declares) = (itemsBindings n b.items).length :=
      List.countP_eq_length.mpr fun β hβ => by simp [hassigns β hβ]
    rw [count_namesBound hn.lone, ← hall]
    exact hn.assigned
  intro q hq hmem
  obtain ⟨id, v, hbound, hbind⟩ := exists_bound hq hmem
  have hentry := entry_of_unread hread honce hbind
  have hwidth := hn.lone q hq hmem
  obtain ⟨s, content⟩ := q
  cases s with
  | declare id' names values =>
      have hdeclares := hassigns ⟨id', true⟩
        ((mem_bindings_items b.items).mpr ⟨_, hq, if_pos hmem⟩)
      contradiction
  | assign id' targets values =>
      obtain rfl := eq_of_lone hwidth hmem
      obtain ⟨rfl, -⟩ := mem_bound_assign.mp hbound
      obtain ⟨hdeclined, -⟩ := Pass.settled_of_quiet hquiet _ hq
      have htemp : (Context.mk options b.usage).temporary n = some ⟨0, 0, some id, v, false⟩ :=
        Context.temporary_eq_some.mpr
          ⟨List.isPrefixOf_iff_prefix.mp hn.temporary, hentry, rfl⟩
      have hsome : (Context.mk options b.usage).assign id [.name n] values ≠ none := by
        simp [Context.assign, Context.declaredBy, htemp]
      exact hsome hdeclined
  | _ => contradiction

/-- Then all there is stands outside of the statements that bind spare names. -/
theorem usesBesideSpare_of_quiet : usesBesideSpare options b = allUses b.items := by
  have hnone : ∀ {X : Set String}, X ⊆ {n | ∀ q ∈ itemsBinders b.items, n ∉ q.1.names} →
      itemsUses (Stmt.bindsIn X) b.items = allUses b.items := by
    intro X hX
    refine itemsUses_congr fun q hq => ?_
    by_contra hc
    obtain ⟨-, -, n, hn, hnX⟩ := bindsIn_eq_true.mp (by simpa using hc)
    exact hX hnX q hq hn
  refine hnone (spare_subset_of fun X hX _ n hn => ?_)
  rw [unreadBeside, hnone hX] at hn
  exact not_bound_of_quiet hquiet hn.1 hn.2

end

/-! ## Runs -/

/-- There are no more calls than a number, outside of the statements that bind spare names. -/
structure Frugal (options : Options) (heavy : String → Bool) (calls : Nat) (b : Block) : Prop where
  apart : Apart options heavy b.items
  balanced : Balanced options heavy b.items
  once : ReadOnce options heavy b
  le : weigh (price 1 0 0) (usesBesideSpare options b) ≤ calls

namespace Frugal

variable {calls : Nat}

/-- Narrower outlines that weigh no more are as frugal. -/
theorem of_weigh {b' : Block} (h : Frugal options heavy calls b)
    (hnarrows : Narrows heavy b.items b'.items)
    (hweigh : ∀ call read, (∀ n, heavy n = false → read n = 0) →
      weigh (price call read 0) (usesBesideSpare options b') ≤
        weigh (price call read 0) (usesBesideSpare options b)) :
    Frugal options heavy calls b' := by
  refine ⟨hnarrows.apart h.apart, hnarrows.balanced h.balanced, ?_,
    (hweigh 1 0 fun _ _ => rfl).trans h.le⟩
  intro q' hq' n id m' hbind' htemp hm'
  obtain ⟨q, hq, hstems⟩ := hnarrows.binders q' hq'
  obtain ⟨v, hbind, -, hname⟩ := hstems.bound n id _ hbind' rfl
  obtain ⟨m, rfl, hle⟩ := hname m' rfl
  have hm := hle hm'
  have hn : heavy n = true := by
    refine h.balanced q hq n id _ hbind htemp rfl ⟨.read m, ?_, hm⟩
    exact itemsUses_subset_content ((recorded_block b).content q hq) hbind List.mem_cons_self
  have hcount := hweigh 0 (fun k => if k = n then 1 else 0) fun k hk => if_neg (by
    rintro rfl
    rw [hn] at hk
    contradiction)
  rw [weigh_indicator, weigh_indicator] at hcount
  exact hcount.trans (h.once q hq n id m hbind htemp hm)

theorem walk (h : Frugal options heavy calls b) :
    Frugal options heavy calls ((Context.mk options b.usage).pass.walk b).1 :=
  h.of_weigh (narrows_temporaries h.balanced)
    (weigh_spare_walk h.apart h.balanced h.once)

theorem folding (h : Frugal options heavy calls b) :
    Frugal options heavy calls (Folding.pass.walk b).1 :=
  h.of_weigh (narrows_folding b) fun call read _ => weigh_spare_folding call read

theorem simplify (h : Frugal options heavy calls b) :
    Frugal options heavy calls (b.simplify options none).1 := by
  refine Pipeline.run_preserves (P := Frugal options heavy calls)
    (Pipeline.standard options none) ?_ h
  intro r hr b' hb'
  simp only [Pipeline.standard, Option.toList_none, List.map_nil, List.nil_append,
    List.mem_cons, List.not_mem_nil, or_false] at hr
  rcases hr with rfl | rfl
  · exact hb'.folding
  · exact hb'.walk

end Frugal

end

open Pipeline in
/-- Calls are not copied.  Let those temporaries be heavy that lead to a call.  If the statements that
bind them bind nothing else, and each of them is read at one place at most where it stands for another,
then a run that converges leaves no more calls than there were.  A temporary may well be assigned again,
as it is not inlined then.

There are two ways in which calls are copied otherwise: what stands for a heavy name is read at two
places (`simplify_calls_le_read_twice`), or the declaration of a heavy name stays for the sake of another
name that it declares (`simplify_calls_le_two_names`). -/
theorem simplify_calls_le (options : Options) (b : Block) (heavy : String → Bool)
    (hapart : Apart options heavy b.items) (hbalanced : Balanced options heavy b.items)
    (honce : ReadOnce options heavy b)
    (hconverged : (b.simplify options none).2.converged = true) :
    (b.simplify options none).1.calls ≤ b.calls := by
  have hfrugal : Frugal options heavy b.calls b := by
    refine ⟨hapart, hbalanced, honce, ?_⟩
    rw [calls_eq_weigh]
    exact weigh_sublist (itemsUses_sublist_allUses _ _)
  obtain ⟨-, hquiet, -⟩ := rounds_of_converged rfl hconverged
  have hlast : Walk.Progress.Quiet .start ((Context.mk options
      (b.simplify options none).1.usage).pass.walk (b.simplify options none).1).2 :=
    hquiet (Temporaries.stage options) (by simp [Pipeline.standard])
  rw [calls_eq_weigh (b.simplify options none).1, ← usesBesideSpare_of_quiet hlast]
  exact hfrugal.simplify.le

/-- Where no name is read twice, none is that stands for another. -/
theorem readOnce_of_nodup {options : Options} {heavy : String → Bool} {b : Block}
    (h : (namesRead (allUses b.items)).Nodup) : ReadOnce options heavy b := by
  intro q hq n id m _ _ _
  have hsub := (itemsUses_sublist_allUses (Stmt.bindsIn (spare (soloNames options b.items) b.items))
    b.items).filterMap Use.read?
  exact List.nodup_iff_count_le_one.mp (h.sublist hsub) n

namespace CopiedCalls

/-- `local _1 = f() + a; local _2 = _1; x = _2; local _3 = g() + b; _3 = h() + c; y = _3`: one call
reaches `x` by way of two temporaries, and the third temporary stays as it is assigned again. -/
def renamed : Block :=
  [.declare 1 ["_1"] [.binary .add (.call (.name "f") []) (.name "a")],
   .declare 2 ["_2"] [.name "_1"], .assign 3 [.name "x"] [.name "_2"],
   .declare 4 ["_3"] [.binary .add (.call (.name "g") []) (.name "b")],
   .assign 5 [.name "_3"] [.binary .add (.call (.name "h") []) (.name "c")],
   .assign 6 [.name "y"] [.name "_3"]]

/-- `local _1 = f() + a; local _2 = _1; x = _2; y = _2`: what stands for `_1` is read at two places,
and so `_1` is read once before the first walk only. -/
def readTwice : Block :=
  [.declare 1 ["_1"] [.binary .add (.call (.name "f") []) (.name "a")],
   .declare 2 ["_2"] [.name "_1"], .assign 3 [.name "x"] [.name "_2"],
   .assign 4 [.name "y"] [.name "_2"]]

/-- `local _1, y = f() + a, g; x = _1; return y`: the declaration of `_1` stays, as `y` is read. -/
def twoNames : Block :=
  [.declare 1 ["_1", "y"] [.binary .add (.call (.name "f") []) (.name "a"), .name "g"],
   .assign 2 [.name "x"] [.name "_1"], .ret [.name "y"]]

end CopiedCalls

theorem simplify_calls_le_renamed :
    (CopiedCalls.renamed.simplify .standard none).1 =
        [.assign 3 [.name "x"] [.binary .add (.call (.name "f") []) (.name "a")],
         .declare 4 ["_3"] [.binary .add (.call (.name "g") []) (.name "b")],
         .assign 5 [.name "_3"] [.binary .add (.call (.name "h") []) (.name "c")],
         .assign 6 [.name "y"] [.name "_3"]] ∧
      (CopiedCalls.renamed.simplify .standard none).1.calls ≤ CopiedCalls.renamed.calls := by
  have hwidth : ∀ q ∈ itemsBinders CopiedCalls.renamed.items, q.1.width = 1 := by decide
  refine ⟨rfl, simplify_calls_le .standard CopiedCalls.renamed (fun _ => true) ?_ (balanced_true _ _)
    (readOnce_of_nodup (by decide)) rfl⟩
  exact fun _ _ _ q hq _ => hwidth q hq

/-- A call is copied where a temporary that stands for another, which holds the call, is read twice. -/
theorem simplify_calls_le_read_twice :
    ¬ ∀ (options : Options) (b : Block), (b.simplify options none).2.converged = true →
      (b.simplify options none).1.calls ≤ b.calls := by
  intro h
  have hrun : CopiedCalls.readTwice.simplify .standard none =
      ([.assign 3 [.name "x"] [.binary .add (.call (.name "f") []) (.name "a")],
        .assign 4 [.name "y"] [.binary .add (.call (.name "f") []) (.name "a")]], ⟨4, 6, true⟩) := rfl
  have hle := h .standard CopiedCalls.readTwice (by rw [hrun])
  rw [hrun] at hle
  exact absurd hle (by decide)

/-- A call is copied, though no name is read twice, where the declaration that holds it declares another
name that is read. -/
theorem simplify_calls_le_two_names :
    ¬ ∀ (options : Options) (b : Block) (heavy : String → Bool), Balanced options heavy b.items →
      ReadOnce options heavy b → (b.simplify options none).2.converged = true →
        (b.simplify options none).1.calls ≤ b.calls := by
  intro h
  have hrun : CopiedCalls.twoNames.simplify .standard none =
      ([.declare 1 ["_1", "y"] [.binary .add (.call (.name "f") []) (.name "a"), .name "g"],
        .assign 2 [.name "x"] [.binary .add (.call (.name "f") []) (.name "a")],
        .ret [.name "y"]], ⟨2, 1, true⟩) := rfl
  have hle := h .standard CopiedCalls.twoNames (fun _ => true) (balanced_true _ _)
    (readOnce_of_nodup (by decide)) (by rw [hrun])
  rw [hrun] at hle
  exact absurd hle (by decide)

end Devirt
