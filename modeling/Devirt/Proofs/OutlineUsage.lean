import Devirt.Proofs.Outlines
import Devirt.Proofs.Inlining
import Devirt.Proofs.TemporaryRules
import Mathlib.Data.List.Perm.Basic
import Mathlib.Tactic

set_option autoImplicit false

/-! # The usage table and the outline

The events of a block are the uses in its outline, up to order and but for the calls (`recorded_block`).
So the table can be read off the outline: what a rule inlines for a name is bound by one of its
statements (`exists_binder_of_substitute`), and a name that is read nowhere and bound once has an entry
that says so (`entry_of_unread`). -/

namespace Devirt

open Usage

/-! ## Names that are read and bound -/

namespace Use

def isName : Use → Bool
  | call => false
  | read _ | bind .. => true

end Use

/-- The names that are read. -/
def namesRead (us : List Use) : List String := us.filterMap Use.read?

/-- The names that are bound. -/
def namesBound (us : List Use) : List String := us.filterMap Use.bound?

theorem namesRead_append (us vs : List Use) : namesRead (us ++ vs) = namesRead us ++ namesRead vs :=
  List.filterMap_append

theorem namesBound_append (us vs : List Use) :
    namesBound (us ++ vs) = namesBound us ++ namesBound vs :=
  List.filterMap_append

theorem mem_namesRead {n : String} {us : List Use} : n ∈ namesRead us ↔ .read n ∈ us := by
  rw [namesRead, List.mem_filterMap]
  constructor
  · rintro ⟨u, hu, hn⟩
    cases u <;> simp_all [Use.read?]
  · exact fun h => ⟨_, h, rfl⟩

theorem mem_namesBound {n : String} {us : List Use} :
    n ∈ namesBound us ↔ ∃ id v, .bind n id v ∈ us := by
  rw [namesBound, List.mem_filterMap]
  constructor
  · rintro ⟨u, hu, hn⟩
    cases u with
    | bind m id v =>
        obtain rfl := Option.some.inj hn
        exact ⟨id, v, hu⟩
    | _ => contradiction
  · rintro ⟨id, v, h⟩
    exact ⟨_, h, rfl⟩

theorem namesRead_subset {us vs : List Use} (h : us ⊆ vs) : namesRead us ⊆ namesRead vs :=
  fun _ hn => mem_namesRead.mpr (h (mem_namesRead.mp hn))

theorem namesRead_filter (us : List Use) : namesRead (us.filter Use.isName) = namesRead us := by
  rw [namesRead, List.filterMap_filter]
  congr 1
  funext u
  cases u <;> rfl

theorem namesBound_filter (us : List Use) : namesBound (us.filter Use.isName) = namesBound us := by
  rw [namesBound, List.filterMap_filter]
  congr 1
  funext u
  cases u <;> rfl

mutual

theorem exists_binder_item {c : Stmt → Bool} {n : String} {id : NodeId} {v : Option Expr} :
    (i : Item) → .bind n id v ∈ i.uses c → ∃ q ∈ i.binders, .bind n id v ∈ q.1.bound
  | .call, h | .read _, h => by simp [Item.uses] at h
  | .bind s content, h => by
      rw [Item.uses_bind, List.mem_append] at h
      rw [Item.binders]
      rcases h with h | h
      · exact ⟨_, List.mem_cons_self, h⟩
      · split at h
        · contradiction
        · obtain ⟨q, hq, hbind⟩ := exists_binder content h
          exact ⟨q, List.mem_cons_of_mem _ hq, hbind⟩

/-- What is bound is bound by some statement. -/
theorem exists_binder {c : Stmt → Bool} {n : String} {id : NodeId} {v : Option Expr} :
    (xs : List Item) → .bind n id v ∈ itemsUses c xs →
    ∃ q ∈ itemsBinders xs, .bind n id v ∈ q.1.bound
  | [], h => by simp [itemsUses] at h
  | i :: xs, h => by
      rw [itemsUses, List.mem_append] at h
      rw [itemsBinders]
      rcases h with h | h
      · obtain ⟨q, hq, hbind⟩ := exists_binder_item i h
        exact ⟨q, List.mem_append_left _ hq, hbind⟩
      · obtain ⟨q, hq, hbind⟩ := exists_binder xs h
        exact ⟨q, List.mem_append_right _ hq, hbind⟩

end

theorem eq_of_count_flatMap {α β : Type} [DecidableEq β] {f : α → List β} {l : List α} {x y : α}
    {a : β} (h : (l.flatMap f).count a ≤ 1) (hx : x ∈ l) (hy : y ∈ l) (hax : a ∈ f x)
    (hay : a ∈ f y) : x = y := by
  induction l with
  | nil => contradiction
  | cons z l ih =>
      rw [List.flatMap_cons, List.count_append] at h
      -- two different items would count twice
      have htwice : ∀ w ∈ l, a ∈ f w → ¬ a ∈ f z := by
        intro w hw haw haz
        have hz := List.count_pos_iff.mpr haz
        have hl := List.count_pos_iff.mpr (List.mem_flatMap_of_mem hw haw)
        omega
      rcases List.mem_cons.mp hx with rfl | hxl
      · rcases List.mem_cons.mp hy with rfl | hyl
        · rfl
        · exact absurd hax (htwice y hyl hay)
      · rcases List.mem_cons.mp hy with rfl | hyl
        · exact absurd hay (htwice x hxl hax)
        · exact ih (by omega) hxl hyl

/-- Of a name that is bound once, the statement that binds it is determined. -/
theorem binder_unique {xs : List Item} {n : String} {q q' : Stmt × List Item}
    (h : (namesBound (allUses xs)).count n ≤ 1) (hq : q ∈ itemsBinders xs)
    (hq' : q' ∈ itemsBinders xs) (hn : n ∈ namesBound q.1.bound) (hn' : n ∈ namesBound q'.1.bound) :
    q = q' := by
  have hsub : ((itemsBinders xs).flatMap fun q => namesBound q.1.bound).Sublist
      (namesBound (allUses xs)) := by
    have := (bound_sublist xs).filterMap Use.bound?
    rwa [List.filterMap_flatMap] at this
  exact eq_of_count_flatMap ((hsub.count_le n).trans h) hq hq' hn hn'

/-! ## The events -/

/-- What an event uses. -/
def Usage.Event.use? : Event → Option Use
  | .read n _ => some (.read n)
  | .declare n _ id v | .assign n _ id v => some (.bind n id v)
  | .introduce _ => none

/-- How an event binds a name. -/
def Usage.Event.binder? (n : String) : Event → Option Binder
  | .declare m _ id _ => if m = n then some ⟨id, true⟩ else none
  | .assign m _ id _ => if m = n then some ⟨id, false⟩ else none
  | .read .. | .introduce _ => none

/-- Statements that bind the name bind nothing else. -/
def Lone (n : String) (xs : List Item) : Prop :=
  ∀ q ∈ itemsBinders xs, n ∈ q.1.names → q.1.width = 1

theorem lone_append {n : String} {xs ys : List Item} :
    Lone n (xs ++ ys) ↔ Lone n xs ∧ Lone n ys := by
  rw [Lone, itemsBinders_append, List.forall_mem_append]
  rfl

theorem lone_bind {n : String} {s : Stmt} {xs : List Item} :
    Lone n [.bind s xs] ↔ (n ∈ s.names → s.width = 1) ∧ Lone n xs := by
  rw [Lone, itemsBinders, itemsBinders, Item.binders, List.append_nil, List.forall_mem_cons]
  rfl

theorem binder?_of_notMem {n : String} {s : Stmt} (h : n ∉ s.names) : s.binder? n = none :=
  if_neg h

theorem eq_bind_of_bound (s : Stmt) : ∀ u ∈ s.bound, ∃ n id v, u = .bind n id v := by
  intro u hu
  cases s with
  | declare id names values =>
      obtain ⟨q, -, rfl⟩ := List.mem_map.mp hu
      exact ⟨q.1, id, q.2, rfl⟩
  | assign id targets values =>
      obtain ⟨q, -, hq⟩ := List.mem_filterMap.mp hu
      obtain ⟨n, -, rfl⟩ := Option.map_eq_some_iff.mp hq
      exact ⟨n, id, q.2, rfl⟩
  | _ => contradiction

theorem isName_of_bound (s : Stmt) : ∀ u ∈ s.bound, u.isName = true := by
  intro u hu
  obtain ⟨n, id, v, rfl⟩ := eq_bind_of_bound s u hu
  rfl

theorem namesRead_bound (s : Stmt) : namesRead s.bound = [] := by
  rw [namesRead, List.filterMap_eq_nil_iff]
  intro u hu
  obtain ⟨n, id, v, rfl⟩ := eq_bind_of_bound s u hu
  rfl

/-- An outline and the events of one text: the uses are the same, each statement holds what stands
in it, and a name is bound in one order, at least where it is the only one that its statements bind. -/
structure Recorded (xs : List Item) (es : List Event) : Prop where
  uses : (es.filterMap Event.use?).Perm ((allUses xs).filter Use.isName)
  content : ∀ q ∈ itemsBinders xs, stmtItems q.1 = [.bind q.1 q.2]
  order : ∀ n, Lone n xs → es.filterMap (Event.binder? n) = itemsBindings n xs

namespace Recorded

variable {xs ys : List Item} {es es' : List Event}

theorem nil : Recorded [] [] := ⟨.refl _, by simp [itemsBinders], fun _ _ => rfl⟩

theorem append (h : Recorded xs es) (h' : Recorded ys es') :
    Recorded (xs ++ ys) (es ++ es') := by
  constructor
  · rw [List.filterMap_append, allUses, itemsUses_append, List.filter_append]
    exact h.uses.append h'.uses
  · rw [itemsBinders_append]
    exact List.forall_mem_append.mpr ⟨h.content, h'.content⟩
  · intro n hn
    obtain ⟨hxs, hys⟩ := lone_append.mp hn
    rw [List.filterMap_append, itemsBindings_append, h.order n hxs, h'.order n hys]

theorem namesRead (h : Recorded xs es) :
    (namesRead (es.filterMap Event.use?)).Perm (namesRead (allUses xs)) := by
  rw [← namesRead_filter (allUses xs)]
  exact h.uses.filterMap Use.read?

theorem namesBound (h : Recorded xs es) :
    (namesBound (es.filterMap Event.use?)).Perm (namesBound (allUses xs)) := by
  rw [← namesBound_filter (allUses xs)]
  exact h.uses.filterMap Use.bound?

theorem call (h : Recorded xs es) : Recorded (.call :: xs) es := ⟨h.uses, h.content, h.order⟩

theorem introduce (h : Recorded xs es) (names : List String) :
    Recorded xs (names.map .introduce ++ es) := by
  have hnames : (names.map Event.introduce).filterMap Event.use? = [] := by simp [Event.use?]
  refine ⟨?_, h.content, fun n hn => ?_⟩
  · rw [List.filterMap_append, hnames]
    exact h.uses
  · have hnone : (names.map Event.introduce).filterMap (Event.binder? n) = [] := by
      simp [Event.binder?]
    rw [List.filterMap_append, hnone]
    exact h.order n hn

/-- The events of a statement are those of what it holds, and what it binds. -/
theorem bind {s : Stmt} (h : Recorded xs es) (hs : stmtItems s = [.bind s xs])
    (hes : (es'.filterMap Event.use?).Perm (es.filterMap Event.use? ++ s.bound))
    (horder : ∀ n, (n ∈ s.names → s.width = 1) → es'.filterMap (Event.binder? n)
      = es.filterMap (Event.binder? n) ++ (s.binder? n).toList) :
    Recorded [.bind s xs] es' := by
  constructor
  · rw [allUses, itemsUses_bind, List.filter_append, List.filter_eq_self.mpr (isName_of_bound s)]
    exact hes.trans ((h.uses.append_right _).trans List.perm_append_comm)
  · rw [itemsBinders, itemsBinders, Item.binders, List.append_nil]
    exact List.forall_mem_cons.mpr ⟨hs, h.content⟩
  · intro n hn
    obtain ⟨hwidth, hxs⟩ := lone_bind.mp hn
    rw [itemsBindings_bind, ← h.order n hxs]
    exact horder n hwidth

end Recorded

/-- The events of a declaration bind its names to its values. -/
theorem use?_declares (place : Place) (id : NodeId) (names : List String) (values : List Expr) :
    ((paired names values).map fun q => Event.declare q.1 place id q.2).filterMap Event.use?
      = (Stmt.declare id names values).bound := by
  rw [List.filterMap_map, Stmt.bound, ← List.filterMap_eq_map]
  rfl

/-- A declaration of one name binds it once, and other declarations bind other names. -/
theorem binder?_declares {n : String} (place : Place) {id : NodeId} {names : List String}
    {values : List Expr} (h : n ∈ names → names.length = 1) :
    ((paired names values).map fun q => Event.declare q.1 place id q.2).filterMap (Event.binder? n)
      = ((Stmt.declare id names values).binder? n).toList := by
  have hnames : ((paired names values).map fun q => Event.declare q.1 place id q.2).filterMap
      (Event.binder? n) = names.filterMap fun m => if m = n then some ⟨id, true⟩ else none := by
    conv_rhs => rw [← paired_fst names values]
    rw [List.filterMap_map, List.filterMap_map]
    rfl
  rw [hnames]
  by_cases hn : n ∈ names
  · obtain ⟨m, rfl⟩ := List.length_eq_one_iff.mp (h hn)
    obtain rfl := List.mem_singleton.mp hn
    simp [Stmt.binder?, Stmt.names]
  · rw [binder?_of_notMem (s := .declare id names values) hn]
    refine List.filterMap_eq_nil_iff.mpr fun m hm => if_neg ?_
    rintro rfl
    exact hn hm

/-- The only target of an assignment that binds a name. -/
theorem eq_of_lone {n : String} {targets : List Expr} (h : targets.length = 1)
    (hn : n ∈ targets.filterMap Expr.name?) : targets = [.name n] := by
  obtain ⟨t, rfl⟩ := List.length_eq_one_iff.mp h
  obtain ⟨t', ht', hname⟩ := List.mem_filterMap.mp hn
  rw [← List.mem_singleton.mp ht', eq_name_of_name? hname]

/-- Targets with their values, of which there may be too few. -/
def targetPairs : List Expr → List (Option Expr) → List (Expr × Option Expr)
  | [], _ => []
  | e :: es, vs => (e, vs.head?.join) :: targetPairs es (vs.drop 1)

theorem targetPairs_nil (es : List Expr) : targetPairs es [] = es.map fun e => (e, none) := by
  induction es with
  | nil => rfl
  | cons e es ih => rw [targetPairs, List.drop_nil, ih]; rfl

theorem targetPairs_zip {es : List Expr} {vs : List (Option Expr)} (h : es.length = vs.length) :
    targetPairs es vs = es.zip vs := by
  induction es generalizing vs with
  | nil => rfl
  | cons e es ih =>
      cases vs with
      | nil => simp at h
      | cons v vs =>
          rw [targetPairs, List.drop_one, List.tail_cons, ih (by simpa using h)]
          rfl

theorem paired_eq_targetPairs (targets values : List Expr) :
    paired targets values =
      targetPairs targets (if targets.length = values.length then values.map some else []) := by
  unfold paired
  split
  · rename_i h
    rw [targetPairs_zip (by simpa using h)]
  · rw [targetPairs_nil]

/-- The names that targets bind. -/
def targetsBound (id : NodeId) (ps : List (Expr × Option Expr)) : List Use :=
  ps.filterMap fun q => q.1.name?.map fun n => .bind n id q.2

mutual

theorem recorded_expr (place : Place) : (e : Expr) → (next : Nat) →
    Recorded (exprItems e) (exprEvents place e next).1
  | .nil, _ | .bool _, _ | .number _, _ | .string _, _ | .vararg, _ => .nil
  | .name n, _ =>
      ⟨.refl _, by simp [exprItems, itemsBinders, Item.binders], fun _ _ => rfl⟩
  | .binary _ l r, next => (recorded_expr place l next).append (recorded_expr place r _)
  | .unary _ e, next => (recorded_expr place e next :)
  | .member o _, next => (recorded_expr place o next :)
  | .index t k, next => (recorded_expr place t next).append (recorded_expr place k _)
  | .call f args, next =>
      ((recorded_expr place f next).append (recorded_exprs place args _)).call
  | .table entries, next => recorded_entries place entries next
  | .function params _ body, next =>
      (recorded_stmts (place ++ [next]) body (next + 1)).introduce params

theorem recorded_exprs (place : Place) : (es : List Expr) → (next : Nat) →
    Recorded (exprsItems es) (exprsEvents place es next).1
  | [], _ => .nil
  | e :: es, next => (recorded_expr place e next).append (recorded_exprs place es _)

theorem recorded_entries (place : Place) : (es : List Entry) → (next : Nat) →
    Recorded (entriesItems es) (entriesEvents place es next).1
  | [], _ => .nil
  | .positional v :: es, next => (recorded_expr place v next).append (recorded_entries place es _)
  | .keyed k v :: es, next =>
      ((recorded_expr place k next).append (recorded_expr place v _)).append
        (recorded_entries place es _)

/-- Of the targets the names are bound, the others are read. -/
theorem recorded_targets (place : Place) (id : NodeId) : (es : List Expr) →
    (vs : List (Option Expr)) → (next : Nat) →
    ∃ es₁, Recorded (targetsItems es) es₁ ∧
      ((targetsEvents place id vs es next).1.filterMap Event.use?).Perm
        (es₁.filterMap Event.use? ++ targetsBound id (targetPairs es vs)) ∧
      ∀ n, n ∉ es.filterMap Expr.name? →
        (targetsEvents place id vs es next).1.filterMap (Event.binder? n)
          = es₁.filterMap (Event.binder? n)
  | [], _, _ => ⟨[], .nil, .refl _, fun _ _ => rfl⟩
  | e :: es, vs, next => by
      cases hn : e.name? with
      | none =>
          obtain ⟨es₁, hes, hperm, horder⟩ :=
            recorded_targets place id es (vs.drop 1) (exprEvents place e next).2
          refine ⟨(exprEvents place e next).1 ++ es₁, ?_, ?_, fun n hnames => ?_⟩
          · rw [targetsItems, hn]
            exact (recorded_expr place e next).append hes
          · rw [targetsEvents_cons hn, targetPairs, targetsBound, List.filterMap_cons, hn,
              List.filterMap_append, List.filterMap_append, List.append_assoc]
            exact hperm.append_left _
          · rw [List.filterMap_cons, hn] at hnames
            rw [targetsEvents_cons hn, List.filterMap_append, List.filterMap_append,
              horder n hnames]
      | some m =>
          obtain rfl := eq_name_of_name? hn
          obtain ⟨es₁, hes, hperm, horder⟩ := recorded_targets place id es (vs.drop 1) next
          refine ⟨es₁, hes, ?_, fun n hnames => ?_⟩
          · rw [targetPairs, targetsBound, List.filterMap_cons]
            exact (hperm.cons _).trans List.perm_middle.symm
          · rw [List.filterMap_cons, hn] at hnames
            obtain ⟨hne, hrest⟩ := not_or.mp fun h => hnames (List.mem_cons.mpr h)
            rw [← horder n hrest, targetsEvents, List.filterMap_cons, Event.binder?,
              if_neg (Ne.symm hne)]

theorem recorded_stmt (place : Place) : (s : Stmt) → (next : Nat) →
    Recorded (stmtItems s) (stmtEvents place s next).1
  | .declare id names values, next => by
      refine (recorded_exprs place values next).bind rfl ?_ fun n hn => ?_
      · rw [← use?_declares place]
        exact .of_eq List.filterMap_append
      · exact List.filterMap_append.trans (congrArg (_ ++ ·) (binder?_declares place hn))
  | .assign id targets values, next => by
      obtain ⟨es₁, hes, hperm, horder⟩ := recorded_targets place id targets
        (if targets.length = values.length then values.map some else [])
        (exprsEvents place values next).2
      refine ((recorded_exprs place values next).append hes).bind rfl ?_ fun n hn => ?_
      · have hbound : (Stmt.assign id targets values).bound = targetsBound id (targetPairs targets
            (if targets.length = values.length then values.map some else [])) := by
          rw [Stmt.bound, paired_eq_targetPairs]
          rfl
        rw [hbound, List.filterMap_append, List.append_assoc]
        exact (List.Perm.of_eq List.filterMap_append).trans (hperm.append_left _)
      · refine List.filterMap_append.trans ?_
        rw [List.filterMap_append, List.append_assoc]
        congr 1
        by_cases hmem : n ∈ (Stmt.assign id targets values).names
        · obtain rfl := eq_of_lone (hn hmem) hmem
          have hnone : es₁.filterMap (Event.binder? n) = [] :=
            hes.order n fun q hq => by contradiction
          rw [hnone, Stmt.binder?, if_pos hmem]
          simp [targetsEvents, Event.binder?]
        · rw [horder n hmem, binder?_of_notMem hmem]
          exact (List.append_nil _).symm
  | .call f args, next => ((recorded_expr place f next).append (recorded_exprs place args _)).call
  | .scope body, next => recorded_stmts (place ++ [next]) body (next + 1)
  | .branch clauses none, next => recorded_clauses place clauses next
  | .branch clauses (some body), next =>
      (recorded_clauses place clauses next).append (recorded_stmts _ body _)
  | .whileLoop cond body, next => (recorded_expr place cond next).append (recorded_stmts _ body _)
  | .repeatLoop body cond, next => (recorded_stmts _ body _).append (recorded_expr _ cond _)
  | .numericFor var start limit none body, next =>
      ((recorded_expr place start next).append (recorded_expr place limit _)).append
        ((recorded_stmts _ body _).introduce [var])
  | .numericFor var start limit (some step) body, next =>
      (((recorded_expr place start next).append (recorded_expr place limit _)).append
        (recorded_expr place step _)).append ((recorded_stmts _ body _).introduce [var])
  | .genericFor names exprs body, next => by
      let inner := (exprsEvents place exprs next).2
      have h := (recorded_exprs place exprs next).append
        ((recorded_stmts (place ++ [inner]) body (inner + 1)).introduce names)
      rwa [← List.append_assoc] at h
  | .ret values, next => recorded_exprs place values next
  | .brk, _ => .nil

theorem recorded_stmts (place : Place) : (b : List Stmt) → (next : Nat) →
    Recorded (stmtsItems b) (stmtsEvents place b next).1
  | [], _ => .nil
  | s :: b, next => (recorded_stmt place s next).append (recorded_stmts place b _)

theorem recorded_clauses (place : Place) : (cs : List Clause) → (next : Nat) →
    Recorded (clausesItems cs) (clausesEvents place cs next).1
  | [], _ => .nil
  | .mk cond body :: cs, next =>
      ((recorded_expr place cond next).append (recorded_stmts _ body _)).append
        (recorded_clauses place cs _)

end

/-- The outline of a block and its events. -/
theorem recorded_block (b : Block) : Recorded b.items (events b) := recorded_stmts [0] b 1

/-! ## The table -/

theorem count_filterMap_use? (es : List Event) (n : String) :
    (namesRead (es.filterMap Event.use?)).count n = es.countP (·.isReadOf n) := by
  induction es with
  | nil => rfl
  | cons e es ih =>
      rw [List.countP_cons, ← ih, List.filterMap_cons]
      cases e <;>
        simp [Event.use?, Event.isReadOf, namesRead, Use.read?, List.count_cons, List.filterMap_cons]

/-- The reads of an entry are the reads in the outline. -/
theorem count_namesRead (b : Block) (n : String) :
    (namesRead (allUses b.items)).count n = (track n (events b)).info.reads := by
  rw [reads_track, ← count_filterMap_use?, (recorded_block b).namesRead.count_eq]

theorem use?_eq_bind {e : Event} {n : String} {id : NodeId} {v : Option Expr} :
    e.use? = some (.bind n id v) ↔ e.name = n ∧ ∃ place, e.binding? = some (place, id, v) := by
  cases e <;> simp [Event.use?, Event.name, Event.binding?]

theorem bind_mem_iff (b : Block) {n : String} {id : NodeId} {v : Option Expr} :
    .bind n id v ∈ allUses b.items ↔
      ∃ e ∈ events b, e.name = n ∧ ∃ place, e.binding? = some (place, id, v) := by
  have hmem := (recorded_block b).uses.mem_iff (a := .bind n id v)
  rw [List.mem_filter, and_iff_left (show (Use.bind n id v).isName = true from rfl)] at hmem
  rw [← hmem, List.mem_filterMap]
  simp only [use?_eq_bind]

theorem trackFrom_of_introduced {n : String} {es : List Event}
    (h : ∀ e ∈ es, e.name = n → e = .introduce n) (t : Tracked) : trackFrom n t es = t := by
  induction es with
  | nil => rfl
  | cons e es ih =>
      obtain ⟨he, hes⟩ := List.forall_mem_cons.mp h
      rw [trackFrom_cons]
      split
      · rename_i hname
        rw [he hname]
        exact ih hes
      · exact ih hes

theorem binder?_eq_none {e : Event} {n : String} :
    e.binder? n = none ↔ (e.name = n → e.binding? = none) := by
  cases e <;> simp [Event.binder?, Event.name, Event.binding?]

/-- The first binding of a name is the one that is recorded; if the name is not assigned afterwards, all
others declare it. -/
theorem binders_of_declaration {es : List Event} {n : String} {d : NodeId}
    (h : (track n es).info.declaration = some d) :
    ∃ β βs, es.filterMap (Event.binder? n) = β :: βs ∧ β.id = d ∧
      ((track n es).info.assignments = 0 → ∀ γ ∈ βs, γ.declares = true) := by
  obtain ⟨pre, e, post, place, rfl, hpre, rfl, hbind, -⟩ := split_first_binding rfl h
  have hnone : pre.filterMap (Event.binder? e.name) = [] :=
    List.filterMap_eq_nil_iff.mpr fun e' he' => binder?_eq_none.mpr (hpre e' he')
  have hfirst : ∃ β, e.binder? e.name = some β ∧ β.id = d := by
    generalize (trackFrom e.name Tracked.fresh (pre ++ e :: post)).info.value = v at hbind
    cases e with
    | declare m place' id value | assign m place' id value =>
        cases hbind
        exact ⟨_, if_pos rfl, rfl⟩
    | _ => contradiction
  obtain ⟨β, hβ, hid⟩ := hfirst
  refine ⟨β, post.filterMap (Event.binder? e.name), ?_, hid, fun hzero γ hγ => ?_⟩
  · rw [List.filterMap_append, hnone, List.filterMap_cons, hβ]
    rfl
  · obtain ⟨e', he', hγ⟩ := List.mem_filterMap.mp hγ
    have hassign := not_assigned_after_binding (by rw [hbind]; rfl) hzero e' he'
    cases e' with
    | declare m place' id value =>
        rw [Event.binder?, Option.ite_none_right_eq_some] at hγ
        cases hγ.2
        rfl
    | assign m place' id value =>
        rw [Event.binder?, Option.ite_none_right_eq_some] at hγ
        rw [Event.isAssignOf, beq_eq_false_iff_ne] at hassign
        exact absurd hγ.1 hassign
    | _ => contradiction

theorem count_filterMap_binder? (es : List Event) (n : String) :
    (namesBound (es.filterMap Event.use?)).count n = (es.filterMap (Event.binder? n)).length := by
  induction es with
  | nil => rfl
  | cons e es ih =>
      rw [List.filterMap_cons, List.filterMap_cons]
      cases e with
      | declare m place id value | assign m place id value =>
          rw [Event.use?, namesBound, List.filterMap_cons, Use.bound?, List.count_cons,
            ← namesBound, ih, Event.binder?]
          by_cases hm : m = n <;> simp [hm]
      | read m place | introduce m => exact ih

/-- A name is bound as often as there are statements that bind it alone. -/
theorem count_namesBound {b : Block} {n : String} (h : Lone n b.items) :
    (namesBound (allUses b.items)).count n = (itemsBindings n b.items).length := by
  rw [← (recorded_block b).order n h, ← count_filterMap_binder?,
    (recorded_block b).namesBound.count_eq]

/-- The entry of a name that is bound but not read. -/
theorem reads_of_unread {b : Block} {n : String} {id : NodeId} {v : Option Expr}
    (hread : n ∉ namesRead (allUses b.items)) (hbind : .bind n id v ∈ allUses b.items) :
    ∃ w, b.usage.get? n = some w ∧ w.reads = 0 := by
  obtain ⟨e, he, rfl, -⟩ := (bind_mem_iff b).mp hbind
  refine ⟨_, get?_tabulate_of_mem he, ?_⟩
  rw [← count_namesRead, List.count_eq_zero]
  exact hread

/-- The entry of a name that is bound once and not read. -/
theorem entry_of_unread {b : Block} {n : String} {id : NodeId} {v : Option Expr}
    (hread : n ∉ namesRead (allUses b.items))
    (hcount : (namesBound (allUses b.items)).count n ≤ 1) (hbind : .bind n id v ∈ allUses b.items) :
    b.usage.get? n = some ⟨0, 0, some id, v, false⟩ := by
  obtain ⟨e, he, hname, place, hbinding⟩ := (bind_mem_iff b).mp hbind
  rw [← (recorded_block b).namesBound.count_eq] at hcount
  rw [← (recorded_block b).namesRead.mem_iff] at hread
  have hget := get?_tabulate_of_mem he
  rw [hname] at hget
  rw [Block.usage, hget]
  obtain ⟨pre, post, hsplit⟩ := List.append_of_mem he
  rw [hsplit] at hcount hread ⊢
  -- all other events about the name introduce it
  have hother : ∀ e' ∈ pre ++ post, e'.name = n → e' = .introduce n := by
    intro e' he' hname'
    have htwice : n ∉ namesBound ((pre ++ post).filterMap Event.use?) := by
      rw [List.filterMap_append, List.filterMap_cons, use?_eq_bind.mpr ⟨hname, place, hbinding⟩,
        namesBound_append] at hcount
      rw [List.filterMap_append, namesBound_append]
      simp only [namesBound, List.count_append, List.filterMap_cons, Use.bound?, List.count_cons_self]
        at hcount
      rw [← List.count_eq_zero, List.count_append, namesBound, namesBound]
      omega
    cases e' with
    | read m place' =>
        refine absurd (mem_namesRead.mpr (List.mem_filterMap.mpr ⟨.read m place', ?_, ?_⟩)) hread
        · simp only [List.mem_append, List.mem_cons] at he' ⊢
          tauto
        · rw [Event.use?, show m = n from hname']
    | introduce m => rw [show m = n from hname']
    | declare m place' id' v' | assign m place' id' v' =>
        refine absurd (mem_namesBound.mpr ⟨id', v', List.mem_filterMap.mpr ⟨_, he', ?_⟩⟩) htwice
        rw [Event.use?, show m = n from hname']
  obtain ⟨hpre, hpost⟩ := List.forall_mem_append.mp hother
  rw [track, trackFrom_append, trackFrom_of_introduced hpre, trackFrom_cons, if_pos hname,
    trackFrom_of_introduced hpost]
  cases e with
  | declare m place' id' v' | assign m place' id' v' =>
      cases hbinding
      rfl
  | _ => contradiction

mutual

/-- No statement stands in an expression that may be inlined. -/
theorem itemsBinders_of_mentions {n : String} : (e : Expr) → e.mentions n = false →
    itemsBinders (exprItems e) = []
  | .nil, _ | .bool _, _ | .number _, _ | .string _, _ | .vararg, _ | .name _, _ => rfl
  | .binary _ l r, h | .index l r, h => by
      rw [Expr.mentions, Bool.or_eq_false_iff] at h
      rw [exprItems, itemsBinders_append, itemsBinders_of_mentions l h.1,
        itemsBinders_of_mentions r h.2, List.append_nil]
  | .unary _ e, h | .member e _, h => by
      rw [exprItems, itemsBinders_of_mentions e h]
  | .call f args, h => by
      rw [Expr.mentions, Bool.or_eq_false_iff] at h
      rw [exprItems, itemsBinders, itemsBinders_append, itemsBinders_of_mentions f h.1,
        itemsBinders_of_anyMentions args h.2]
      rfl
  | .table entries, h => by
      rw [exprItems, itemsBinders_of_anyEntryMentions entries h]
  | .function .., h => by contradiction

theorem itemsBinders_of_anyMentions {n : String} : (es : List Expr) →
    Expr.anyMentions n es = false → itemsBinders (exprsItems es) = []
  | [], _ => rfl
  | e :: es, h => by
      rw [Expr.anyMentions, Bool.or_eq_false_iff] at h
      rw [exprsItems, itemsBinders_append, itemsBinders_of_mentions e h.1,
        itemsBinders_of_anyMentions es h.2, List.append_nil]

theorem itemsBinders_of_anyEntryMentions {n : String} : (es : List Entry) →
    Expr.anyEntryMentions n es = false → itemsBinders (entriesItems es) = []
  | [], _ => rfl
  | .positional v :: es, h => by
      rw [Expr.anyEntryMentions, Bool.or_eq_false_iff] at h
      rw [entriesItems, itemsBinders_append, itemsBinders_of_mentions v h.1,
        itemsBinders_of_anyEntryMentions es h.2, List.append_nil]
  | .keyed k v :: es, h => by
      rw [Expr.anyEntryMentions, Bool.or_eq_false_iff, Bool.or_eq_false_iff] at h
      rw [entriesItems, itemsBinders_append, itemsBinders_append, itemsBinders_of_mentions k h.1.1,
        itemsBinders_of_mentions v h.1.2, itemsBinders_of_anyEntryMentions es h.2]
      rfl

end

namespace Temporaries

/-- The name begins like a temporary. -/
def isTemporary (options : Options) (n : String) : Bool :=
  options.tempPrefix.toList.isPrefixOf n.toList

namespace Context

variable {options : Options} {b : Block}

/-- What is inlined for a name is the value it is bound to in the block. -/
theorem exists_binder_of_substitute {n : String} {v : Expr}
    (h : (Context.mk options b.usage).substitute (.name n) = some v) :
    ∃ q ∈ itemsBinders b.items, ∃ id, .bind n id (some v) ∈ q.1.bound := by
  obtain ⟨m, var, hm, htemp, hvalue, -⟩ := substitute_eq_some h
  cases hm
  obtain rfl := eq_track_of_get? (temporary_eq_some.mp htemp).2.1
  obtain ⟨d, hd⟩ := declared_of_value hvalue
  obtain ⟨e, he, place, hname, hbind, -⟩ := exists_first_binding rfl hd
  rw [show (trackFrom n .fresh (events b)).info.value = some v from hvalue] at hbind
  have hmem := (bind_mem_iff b).mpr ⟨e, he, hname, place, hbind⟩
  obtain ⟨q, hq, hbound⟩ := exists_binder _ hmem
  exact ⟨q, hq, d, hbound⟩

/-- Of a name that is inlined all bindings but the first are declarations. -/
theorem bindings_of_substitute {n : String} {v : Expr} (hlone : Lone n b.items)
    (h : (Context.mk options b.usage).substitute (.name n) = some v) :
    ∃ β βs, itemsBindings n b.items = β :: βs ∧ ∀ γ ∈ βs, γ.declares = true := by
  obtain ⟨m, var, hm, htemp, hvalue, hinline⟩ := substitute_eq_some h
  cases hm
  obtain rfl := eq_track_of_get? (temporary_eq_some.mp htemp).2.1
  obtain ⟨d, hd⟩ := declared_of_value hvalue
  obtain ⟨β, βs, heq, -, hrest⟩ := binders_of_declaration hd
  rw [← (recorded_block b).order n hlone]
  exact ⟨β, βs, heq, hrest (assignments_of_inlinable hinline)⟩

/-- What becomes a declaration binds the name first. -/
theorem bindings_of_declaredBy {n : String} {id : NodeId} (hlone : Lone n b.items)
    (h : (Context.mk options b.usage).declaredBy id (.name n) = true) :
    ∃ β βs, itemsBindings n b.items = β :: βs ∧ β.id = id := by
  obtain ⟨m, var, hm, htemp, hid⟩ := declaredBy_eq_true h
  cases hm
  obtain rfl := eq_track_of_get? (temporary_eq_some.mp htemp).2.1
  obtain ⟨β, βs, heq, hβ, -⟩ := binders_of_declaration hid
  rw [← (recorded_block b).order n hlone]
  exact ⟨β, βs, heq, hβ⟩

theorem isTemporary_of_temporary {n : String} {v : Variable} {c : Context}
    (h : c.temporary n = some v) : isTemporary c.options n = true :=
  List.isPrefixOf_iff_prefix.mpr (temporary_eq_some.mp h).1

/-- What is more than a name is inlined for a name that is read once. -/
theorem count_of_substitute {n : String} {v : Expr}
    (h : (Context.mk options b.usage).substitute (.name n) = some v) (hv : v.name? = none) :
    (namesRead (allUses b.items)).count n = 1 := by
  obtain ⟨m, var, hm, htemp, hvalue, hinline⟩ := substitute_eq_some h
  cases hm
  obtain rfl := eq_track_of_get? (temporary_eq_some.mp htemp).2.1
  rw [count_namesRead]
  exact reads_of_inlinable hinline hv

end Context

end Temporaries

end Devirt
