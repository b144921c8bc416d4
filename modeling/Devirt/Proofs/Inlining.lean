import Devirt.Proofs.Fuel
import Devirt.Proofs.Marks

set_option autoImplicit false

/-! # Where an inlined value comes from

In straight-line code, what is answered for a read of a temporary is the value that the first binding
of the temporary gives it: a statement before the read, or the assignment itself that reads it in one
of its targets.  No other statement assigns the temporary, and a value that is more than a name is
read at this one place only (`value_of_read`).

That is all the rules look at.  What happens between the binding and the read to the names and tables
in the value is not tracked, so an inlined value may be read after a write that changes it
(`value_of_read_after_writes`). -/

namespace Devirt

open Usage Temporaries Temporaries.Context

/-! ## Places -/

def Usage.Event.place? : Event → Option Place
  | .read _ place | .declare _ place _ _ | .assign _ place _ _ => some place
  | .introduce _ => none

namespace Inlining

/-- Each event is at the place itself, and satisfies `P`, or inside a block below that is numbered
meanwhile. -/
def Located (P : Event → Prop) (place : Place) (next : Nat) (r : List Event × Nat) : Prop :=
  next ≤ r.2 ∧ ∀ e ∈ r.1, ∀ q, e.place? = some q →
    q = place ∧ P e ∨ ∃ k, next ≤ k ∧ k < r.2 ∧ place ++ [k] <+: q

namespace Located

variable {P Q : Event → Prop} {place : Place} {next : Nat} {r : List Event × Nat}

theorem nil : Located P place next ([], next) := ⟨le_rfl, by simp⟩

theorem mono (h : Located P place next r) (hPQ : ∀ e, P e → Q e) : Located Q place next r :=
  ⟨h.1, fun e he q hq => (h.2 e he q hq).imp_left fun h => ⟨h.1, hPQ e h.2⟩⟩

/-- Events at the place that open no block. -/
theorem here {es : List Event} (h : ∀ e ∈ es, ∀ q, e.place? = some q → q = place ∧ P e) :
    Located P place next (es, next) :=
  ⟨le_rfl, fun e he q hq => .inl (h e he q hq)⟩

theorem introduce (names : List String) : Located P place next (names.map .introduce, next) :=
  here (by simp [Event.place?])

theorem seq (h : Located P place next r) {f : Nat → List Event × Nat}
    (hf : ∀ next, Located P place next (f next)) :
    Located P place next (r.1 ++ (f r.2).1, (f r.2).2) := by
  obtain ⟨hle, hevents⟩ := h
  obtain ⟨hle', hevents'⟩ := hf r.2
  refine ⟨hle.trans hle', fun e he q hq => ?_⟩
  rcases List.mem_append.mp he with he | he
  · rcases hevents e he q hq with h | ⟨k, hk, hlt, hpre⟩
    · exact .inl h
    · exact .inr ⟨k, hk, Nat.lt_of_lt_of_le hlt hle', hpre⟩
  · rcases hevents' e he q hq with h | ⟨k, hk, hlt, hpre⟩
    · exact .inl h
    · exact .inr ⟨k, hle.trans hk, hlt, hpre⟩

theorem block (h : Located P (place ++ [next]) (next + 1) r) : Located Q place next r := by
  obtain ⟨hle, hevents⟩ := h
  refine ⟨Nat.le_of_succ_le hle, fun e he q hq => .inr ⟨next, le_rfl, hle, ?_⟩⟩
  rcases hevents e he q hq with ⟨rfl, -⟩ | ⟨k, -, -, hpre⟩
  · exact List.prefix_rfl
  · exact (List.prefix_append _ [k]).trans hpre

end Located

/-- The event binds nothing. -/
def Silent (e : Event) : Prop := e.binding? = none

-- An expression binds names in function bodies only.
mutual

theorem located_expr (place : Place) : (e : Expr) → (next : Nat) →
    Located Silent place next (exprEvents place e next)
  | .nil, _ | .bool _, _ | .number _, _ | .string _, _ | .vararg, _ => .nil
  | .name n, _ => .here (by simp [Event.place?, Silent, Event.binding?])
  | .binary _ l r, next => .seq (located_expr place l next) (located_expr place r)
  | .unary _ e, next => located_expr place e next
  | .member o _, next => located_expr place o next
  | .index t k, next => .seq (located_expr place t next) (located_expr place k)
  | .call f args, next => .seq (located_expr place f next) (located_exprs place args)
  | .table entries, next => located_entries place entries next
  | .function params _ body, _ =>
      .seq (.introduce params) fun next => .block (located_stmts (place ++ [next]) body (next + 1))

theorem located_exprs (place : Place) : (es : List Expr) → (next : Nat) →
    Located Silent place next (exprsEvents place es next)
  | [], _ => .nil
  | e :: es, next => .seq (located_expr place e next) (located_exprs place es)

theorem located_entries (place : Place) : (es : List Entry) → (next : Nat) →
    Located Silent place next (entriesEvents place es next)
  | [], _ => .nil
  | .positional v :: es, next => .seq (located_expr place v next) (located_entries place es)
  | .keyed k v :: es, next =>
      .seq (.seq (located_expr place k next) (located_expr place v)) (located_entries place es)

theorem located_targets (place : Place) (id : NodeId) : (es : List Expr) →
    (vs : List (Option Expr)) → (next : Nat) →
    Located (fun _ => True) place next (targetsEvents place id vs es next)
  | [], _, _ => .nil
  | e :: es, vs, next => by
      have hrest := located_targets place id es (vs.drop 1)
      cases hn : e.name? with
      | none =>
          rw [targetsEvents_cons hn]
          exact ((located_expr place e next).mono fun _ _ => trivial).seq hrest
      | some n =>
          obtain rfl := eq_name_of_name? hn
          have hbind : Located (fun _ => True) place next
              ([.assign n place id vs.head?.join], next) := .here (by simp [Event.place?])
          exact hbind.seq hrest

theorem located_stmt (place : Place) : (s : Stmt) → (next : Nat) →
    Located (fun _ => True) place next (stmtEvents place s next)
  | .declare id names values, next =>
      .seq ((located_exprs place values next).mono fun _ _ => trivial) fun next =>
        .here fun e he q hq => by
          obtain ⟨p, -, rfl⟩ := List.mem_map.mp he
          exact ⟨(Option.some.inj hq).symm, trivial⟩
  | .assign id targets values, next =>
      .seq ((located_exprs place values next).mono fun _ _ => trivial)
        (located_targets place id targets _)
  | .call f args, next =>
      (Located.seq (located_expr place f next) (located_exprs place args)).mono fun _ _ => trivial
  | .scope body, next => .block (located_stmts (place ++ [next]) body (next + 1))
  | .branch clauses none, next => located_clauses place clauses next
  | .branch clauses (some body), next =>
      .seq (located_clauses place clauses next) fun next =>
        .block (located_stmts (place ++ [next]) body (next + 1))
  | .whileLoop cond body, next =>
      .seq ((located_expr place cond next).mono fun _ _ => trivial) fun next =>
        .block (located_stmts (place ++ [next]) body (next + 1))
  | .repeatLoop body cond, next =>
      .block (.seq (located_stmts (place ++ [next]) body (next + 1)) fun next' =>
        (located_expr (place ++ [next]) cond next').mono fun _ _ => trivial)
  | .numericFor var start limit none body, next =>
      .seq ((Located.seq (located_expr place start next) (located_expr place limit)).mono
        fun _ _ => trivial) fun next =>
          .seq (.introduce [var]) fun next =>
            .block (located_stmts (place ++ [next]) body (next + 1))
  | .numericFor var start limit (some step) body, next =>
      .seq ((Located.seq (.seq (located_expr place start next) (located_expr place limit))
        (located_expr place step)).mono fun _ _ => trivial) fun next =>
          .seq (.introduce [var]) fun next =>
            .block (located_stmts (place ++ [next]) body (next + 1))
  | .genericFor names exprs body, next =>
      .seq (.seq ((located_exprs place exprs next).mono fun _ _ => trivial)
        fun _ => .introduce names) fun next =>
          .block (located_stmts (place ++ [next]) body (next + 1))
  | .ret values, next => (located_exprs place values next).mono fun _ _ => trivial
  | .brk, _ => .nil

theorem located_stmts (place : Place) : (b : List Stmt) → (next : Nat) →
    Located (fun _ => True) place next (stmtsEvents place b next)
  | [], _ => .nil
  | s :: b, next => .seq (located_stmt place s next) (located_stmts place b)

theorem located_clauses (place : Place) : (cs : List Clause) → (next : Nat) →
    Located (fun _ => True) place next (clausesEvents place cs next)
  | [], _ => .nil
  | .mk cond body :: cs, next =>
      .seq (.seq ((located_expr place cond next).mono fun _ _ => trivial) fun next =>
        .block (located_stmts (place ++ [next]) body (next + 1))) (located_clauses place cs)

end

/-! ## The events of a block, statement by statement -/

/-- An item of two lists one after the other stands in one of them. -/
theorem split_append {α : Type} {xs ys pre post : List α} {x : α}
    (h : xs ++ ys = pre ++ x :: post) :
    (∃ zs, xs = pre ++ x :: zs) ∨ ∃ zs, pre = xs ++ zs ∧ ys = zs ++ x :: post := by
  rw [List.append_eq_append_iff] at h
  rcases h with ⟨zs, hpre, hys⟩ | ⟨zs, hxs, hpost⟩
  · exact .inr ⟨zs, hpre, hys⟩
  · cases zs with
    | nil => exact .inr ⟨[], by simpa using hxs.symm, hpost.symm⟩
    | cons z zs =>
        obtain ⟨rfl, -⟩ : x = z ∧ post = zs ++ ys := by simpa using hpost
        exact .inl ⟨zs, hxs⟩

/-- The events of the first `k` statements, and the next block number. -/
def upTo (b : Block) (k : Nat) : List Event × Nat := stmtsEvents [0] (b.take k) 1

/-- The events of a statement that comes after `k` others. -/
def eventsAt (b : Block) (k : Nat) (s : Stmt) : List Event := (stmtEvents [0] s (upTo b k).2).1

theorem stmtsEvents_append (place : Place) (xs ys : List Stmt) (next : Nat) :
    stmtsEvents place (xs ++ ys) next =
      ((stmtsEvents place xs next).1 ++ (stmtsEvents place ys (stmtsEvents place xs next).2).1,
        (stmtsEvents place ys (stmtsEvents place xs next).2).2) := by
  induction xs generalizing next with
  | nil => rfl
  | cons x xs ih => simp only [List.cons_append, stmtsEvents, ih, List.append_assoc]

theorem upTo_succ {b : Block} {k : Nat} {s : Stmt} (h : b[k]? = some s) :
    (upTo b (k + 1)).1 = (upTo b k).1 ++ eventsAt b k s := by
  rw [upTo, List.take_add_one, h, Option.toList_some, stmtsEvents_append]
  simp [stmtsEvents, eventsAt, upTo]

theorem upTo_prefix (b : Block) {i k : Nat} (h : i ≤ k) : (upTo b i).1 <+: (upTo b k).1 := by
  have htake : b.take k = b.take i ++ (b.take k).drop i := by
    have hsplit := List.take_append_drop i (b.take k)
    rw [List.take_take, Nat.min_eq_left h] at hsplit
    exact hsplit.symm
  rw [upTo, upTo, htake, stmtsEvents_append]
  exact List.prefix_append ..

theorem upTo_prefix_events (b : Block) (k : Nat) : (upTo b k).1 <+: events b := by
  have h : (upTo b (max k b.length)).1 = events b := by
    rw [upTo, List.take_of_length_le (le_max_right ..), events]
  rw [← h]
  exact upTo_prefix b (le_max_left ..)

/-- A part of the events of the first statements belongs to one of them. -/
theorem exists_stmt_of_upTo {b : Block} {k : Nat} {pre post : List Event} {e : Event}
    (h : (upTo b k).1 = pre ++ e :: post) :
    ∃ i < k, ∃ t A B, b[i]? = some t ∧ eventsAt b i t = A ++ e :: B ∧ pre = (upTo b i).1 ++ A := by
  induction k generalizing post with
  | zero => simp [upTo, stmtsEvents] at h
  | succ k ih =>
      cases hk : b[k]? with
      | none =>
          rw [upTo, List.take_add_one, hk, Option.toList_none, List.append_nil] at h
          obtain ⟨i, hi, hrest⟩ := ih h
          exact ⟨i, Nat.lt_succ_of_lt hi, hrest⟩
      | some s =>
          rw [upTo_succ hk] at h
          rcases split_append h with ⟨post', hpost'⟩ | ⟨A, hA, hat⟩
          · obtain ⟨i, hi, hrest⟩ := ih hpost'
            exact ⟨i, Nat.lt_succ_of_lt hi, hrest⟩
          · exact ⟨k, Nat.lt_succ_self k, s, A, post, hk, hat, hA⟩

theorem eventsAt_subset_upTo {b : Block} {i k : Nat} {t : Stmt} (h : b[i]? = some t)
    (hi : i < k) : eventsAt b i t ⊆ (upTo b k).1 := by
  have hpre := upTo_prefix b (Nat.succ_le_of_lt hi)
  rw [upTo_succ h] at hpre
  exact List.Subset.trans (List.subset_append_right ..) hpre.subset

/-- What comes after an event of statement `i` contains the events of all later statements. -/
theorem eventsAt_subset_rest {b : Block} {i k : Nat} {t u : Stmt} (ht : b[i]? = some t)
    (hu : b[k]? = some u) (hi : i < k) {A B C : List Event} {e : Event}
    (hat : eventsAt b i t = A ++ e :: B) (hevents : events b = (upTo b i).1 ++ A ++ e :: C) :
    eventsAt b k u ⊆ C := by
  -- both sides begin with the events up to `e`
  obtain ⟨X, hX⟩ := upTo_prefix b (Nat.succ_le_of_lt hi)
  obtain ⟨Y, hY⟩ := upTo_prefix_events b (k + 1)
  rw [upTo_succ hu, ← hX, upTo_succ ht, hat, hevents] at hY
  have hC : C = B ++ (X ++ (eventsAt b k u ++ Y)) := by simpa using hY.symm
  rw [hC]
  intro e' he'
  simp [he']

/-! ## Straight-line code -/

/-- A `local`, an assignment or a call. -/
def IsStraight : Stmt → Prop
  | .declare .. | .assign .. | .call .. => True
  | _ => False

/-- The expressions of a statement. -/
def parts : Stmt → List Expr
  | .declare _ _ values => values
  | .assign _ targets values => values ++ targets
  | .call f args => f :: args
  | _ => []

/-- The statement itself binds the name to the value. -/
def BindsTo (n : String) (v : Expr) : Stmt → Prop
  | .declare _ names values => (n, some v) ∈ paired names values
  | .assign _ targets values => (.name n, some v) ∈ paired targets values
  | _ => False

/-- The statement itself assigns the name. -/
def Assigns (n : String) : Stmt → Prop
  | .assign _ targets _ => .name n ∈ targets
  | _ => False

theorem mem_filterMap_mark {e : Event} {es : List Event} (h : e ∈ es) {n : String}
    {home : Place} {d : NodeId} {v : Option Expr} (hname : e.name = n)
    (hb : e.binding? = some (home, d, v)) : .bind n ∈ es.filterMap Event.mark? := by
  exact List.mem_filterMap.mpr ⟨e, h, mark?_eq_bind.mpr ⟨hname, by simp [hb]⟩⟩

theorem place?_of_binding {e : Event} {home : Place} {d : NodeId} {v : Option Expr}
    (hb : e.binding? = some (home, d, v)) : e.place? = some home := by
  cases e <;> simp_all [Event.place?, Event.binding?]

theorem not_prefix_self {place : Place} {k : Nat} : ¬ place ++ [k] <+: place := by
  intro h
  have := h.length_le
  rw [List.length_append, List.length_singleton] at this
  omega

/-- A binding at the place of an expression does not come from the expression. -/
theorem Located.not_binding {place : Place} {next : Nat} {r : List Event × Nat}
    (h : Located Silent place next r) {e : Event} (he : e ∈ r.1) {d : NodeId} {v : Option Expr} :
    e.binding? ≠ some (place, d, v) := by
  intro hb
  rcases h.2 e he place (place?_of_binding hb) with ⟨-, hsilent⟩ | ⟨k, -, -, hpre⟩
  · rw [Silent, hb] at hsilent
    contradiction
  · exact not_prefix_self hpre

theorem target_of_binding {place : Place} {id : NodeId} {e : Event} {d : NodeId} {v : Expr} :
    ∀ {es : List Expr} {vs : List (Option Expr)} {next : Nat},
      e ∈ (targetsEvents place id vs es next).1 → e.binding? = some (place, d, some v) →
      (.name e.name, some v) ∈ es.zip vs
  | [], _, _, he, _ => by simp [targetsEvents] at he
  | t :: es, vs, next, he, hb => by
      have hrest : ∀ {next}, e ∈ (targetsEvents place id (vs.drop 1) es next).1 →
          (.name e.name, some v) ∈ (t :: es).zip vs := by
        intro next he
        have hmem := target_of_binding he hb
        cases vs with
        | nil => simp at hmem
        | cons w vs => exact List.mem_cons_of_mem _ hmem
      cases hn : t.name? with
      | none =>
          rw [targetsEvents_cons hn, List.mem_append] at he
          rcases he with he | he
          · exact absurd hb ((located_expr place t next).not_binding he)
          · exact hrest he
      | some n =>
          obtain rfl := eq_name_of_name? hn
          rcases List.mem_cons.mp he with rfl | he
          · cases vs with
            | nil => simp [Event.binding?] at hb
            | cons w vs =>
                simp only [Event.binding?, List.head?_cons, Option.join_some, Option.some.injEq,
                  Prod.mk.injEq] at hb
                simp [Event.name, hb.2.2]
          · exact hrest he

/-- A binding at the place of a statement is one that the statement itself makes. -/
theorem bindsTo_of_binding {s : Stmt} (hs : IsStraight s) {place : Place} {next : Nat} {e : Event}
    (he : e ∈ (stmtEvents place s next).1) {d : NodeId} {v : Expr}
    (hb : e.binding? = some (place, d, some v)) : BindsTo e.name v s := by
  cases s with
  | declare id names values =>
      rcases List.mem_append.mp he with he | he
      · exact absurd hb ((located_exprs place values next).not_binding he)
      · obtain ⟨⟨n, w⟩, hp, rfl⟩ := List.mem_map.mp he
        obtain rfl : w = some v := by
          simp only [Event.binding?, Option.some.injEq, Prod.mk.injEq] at hb
          exact hb.2.2
        exact hp
  | assign id targets values =>
      rcases List.mem_append.mp he with he | he
      · exact absurd hb ((located_exprs place values next).not_binding he)
      · have hmem := target_of_binding he hb
        rw [BindsTo, paired]
        split at hmem
        · rwa [if_pos ‹_›]
        · simp at hmem
  | call f args =>
      exact absurd hb ((Located.seq (located_expr place f next)
        (located_exprs place args)).not_binding he)
  | _ => contradiction

theorem bind_mem_exprsMarks {n : String} {es : List Expr} (h : .bind n ∈ exprsMarks es) :
    ∃ e ∈ es, .bind n ∈ exprMarks e := by
  induction es with
  | nil => simp [exprsMarks] at h
  | cons e es ih =>
      rcases List.mem_append.mp h with h | h
      · exact ⟨e, by simp, h⟩
      · obtain ⟨e', he', h⟩ := ih h
        exact ⟨e', by simp [he'], h⟩

theorem bind_mem_of_exprs {place : Place} {es : List Expr} {next : Nat} {e : Event}
    (he : e ∈ (exprsEvents place es next).1) {home : Place} {d : NodeId} {v : Option Expr}
    (hb : e.binding? = some (home, d, v)) : ∃ x ∈ es, .bind e.name ∈ exprMarks x := by
  have hmark := mem_filterMap_mark he rfl hb
  rw [(echoes_exprs place es next).names] at hmark
  exact bind_mem_exprsMarks (List.mem_of_mem_filter hmark)

theorem bind_mem_of_targets {place : Place} {id : NodeId} {e : Event} {home : Place} {d : NodeId}
    {v : Option Expr} (hb : e.binding? = some (home, d, v)) (hhome : home ≠ place) :
    ∀ {es : List Expr} {vs : List (Option Expr)} {next : Nat},
      e ∈ (targetsEvents place id vs es next).1 → ∃ x ∈ es, .bind e.name ∈ exprMarks x
  | [], _, _, he => by simp [targetsEvents] at he
  | t :: es, vs, next, he => by
      have hrest : ∀ {next}, e ∈ (targetsEvents place id (vs.drop 1) es next).1 →
          ∃ x ∈ t :: es, .bind e.name ∈ exprMarks x := by
        intro next he
        obtain ⟨x, hx, hmark⟩ := bind_mem_of_targets hb hhome he
        exact ⟨x, List.mem_cons_of_mem _ hx, hmark⟩
      cases hn : t.name? with
      | none =>
          rw [targetsEvents_cons hn, List.mem_append] at he
          rcases he with he | he
          · have hmark := mem_filterMap_mark he rfl hb
            rw [(echoes_expr place t next).names] at hmark
            exact ⟨t, by simp, List.mem_of_mem_filter hmark⟩
          · exact hrest he
      | some n =>
          obtain rfl := eq_name_of_name? hn
          rcases List.mem_cons.mp he with rfl | he
          · simp only [Event.binding?, Option.some.injEq, Prod.mk.injEq] at hb
            exact absurd hb.1.symm hhome
          · exact hrest he

/-- A binding elsewhere comes from a function body in the statement. -/
theorem bind_mem_parts {s : Stmt} (hs : IsStraight s) {place : Place} {next : Nat} {e : Event}
    (he : e ∈ (stmtEvents place s next).1) {home : Place} {d : NodeId} {v : Option Expr}
    (hb : e.binding? = some (home, d, v)) (hhome : home ≠ place) :
    ∃ x ∈ parts s, .bind e.name ∈ exprMarks x := by
  cases s with
  | declare id names values =>
      rcases List.mem_append.mp he with he | he
      · exact bind_mem_of_exprs he hb
      · obtain ⟨p, -, rfl⟩ := List.mem_map.mp he
        simp only [Event.binding?, Option.some.injEq, Prod.mk.injEq] at hb
        exact absurd hb.1.symm hhome
  | assign id targets values =>
      rcases List.mem_append.mp he with he | he
      · obtain ⟨x, hx, hmark⟩ := bind_mem_of_exprs he hb
        exact ⟨x, List.mem_append_left _ hx, hmark⟩
      · obtain ⟨x, hx, hmark⟩ := bind_mem_of_targets hb hhome he
        exact ⟨x, List.mem_append_right _ hx, hmark⟩
  | call f args =>
      have he : e ∈ (exprsEvents place (f :: args) next).1 := he
      exact bind_mem_of_exprs he hb
  | _ => contradiction

/-- Only an assignment reads a name after binding it, in one of its targets. -/
theorem read_target {s : Stmt} (hs : IsStraight s) {place : Place} {next : Nat} {A B : List Event}
    {e : Event} (h : (stmtEvents place s next).1 = A ++ e :: B) {d : NodeId} {v : Option Expr}
    (hb : e.binding? = some (place, d, v)) {n : String} {q : Place} (hread : .read n q ∈ B) :
    ∃ id targets values, s = .assign id targets values ∧ .read n ∈ targetsMarks targets := by
  cases s with
  | declare id names values =>
      rcases split_append h with ⟨C, hC⟩ | ⟨C, -, hC⟩
      · have he : e ∈ (exprsEvents place values next).1 := by simp [hC]
        exact absurd hb ((located_exprs place values next).not_binding he)
      · have hmem : Event.read n q ∈ (paired names values).map fun p =>
            .declare p.1 place id p.2 := by
          simp [hC, hread]
        simp at hmem
  | assign id targets values =>
      rcases split_append h with ⟨C, hC⟩ | ⟨C, -, hC⟩
      · have he : e ∈ (exprsEvents place values next).1 := by simp [hC]
        exact absurd hb ((located_exprs place values next).not_binding he)
      · refine ⟨id, targets, values, rfl, ?_⟩
        have hechoes : Echoes (exprsMarks values) (targetsMarks targets) (targetsEvents place id
            (if targets.length = values.length then values.map some else []) targets
            (exprsEvents place values next).2).1 := by
          refine echoes_targets place id targets _ _ fun w hw m hm => ?_
          split at hw
          · exact exprMarks_subset (by simpa using hw) hm
          · simp at hw
        rw [← hechoes.read_mem]
        exact List.mem_filterMap.mpr ⟨.read n q, by simp [hC, hread], rfl⟩
  | call f args =>
      have he : e ∈ (stmtEvents place (.call f args) next).1 := by
        rw [h]
        simp
      exact absurd hb ((Located.seq (located_expr place f next)
        (located_exprs place args)).not_binding he)
  | _ => contradiction

/-! ## The value of a read -/

/-- Statement `i` is the first to bind the name, and binds it to the value; no other statement
assigns it. -/
structure SoleSource (b : Block) (n : String) (v : Expr) (i : Nat) : Prop where
  binds : ∃ t, b[i]? = some t ∧ BindsTo n v t
  first : ∀ k u, k < i → b[k]? = some u → .bind n ∉ stmtMarks u
  unassigned : ∀ k u, b[k]? = some u → Assigns n u → k = i

theorem exists_event_of_mark (place : Place) {s : Stmt} (next : Nat) {x : Mark}
    (hx : x.isName = true) (h : x ∈ stmtMarks s) :
    ∃ e ∈ (stmtEvents place s next).1, e.mark? = some x := by
  rw [← List.mem_filterMap, (echoes_stmt place s next).names]
  exact List.mem_filter.mpr ⟨h, hx⟩

theorem exists_assign_event (place : Place) (id : NodeId) {n : String} {es : List Expr}
    (h : .name n ∈ es) (vs : List (Option Expr)) (next : Nat) :
    ∃ w, .assign n place id w ∈ (targetsEvents place id vs es next).1 := by
  induction es generalizing vs next with
  | nil => simp at h
  | cons t es ih =>
      rcases List.mem_cons.mp h with rfl | hes
      · exact ⟨_, List.mem_cons_self⟩
      · cases hn : t.name? with
        | none =>
            obtain ⟨w, hw⟩ := ih hes (vs.drop 1) (exprEvents place t next).2
            rw [targetsEvents_cons hn]
            exact ⟨w, List.mem_append_right _ hw⟩
        | some m =>
            obtain rfl := eq_name_of_name? hn
            obtain ⟨w, hw⟩ := ih hes (vs.drop 1) next
            exact ⟨w, List.mem_cons_of_mem _ hw⟩

/-- The events of the block before a read in one of its statements, and after. -/
theorem split_read {b : Block} {j : Nat} {s : Stmt} (hs : b[j]? = some s) {n : String}
    (h : .read n ∈ stmtMarks s) :
    ∃ A q B Y, eventsAt b j s = A ++ .read n q :: B ∧
      events b = (upTo b j).1 ++ A ++ .read n q :: (B ++ Y) := by
  obtain ⟨e, he, hmark⟩ := exists_event_of_mark [0] (upTo b j).2 rfl h
  obtain ⟨q, rfl⟩ := mark?_eq_read.mp hmark
  obtain ⟨A, B, hAB⟩ := List.append_of_mem he
  have hAB : eventsAt b j s = A ++ .read n q :: B := hAB
  obtain ⟨Y, hY⟩ := upTo_prefix_events b (j + 1)
  refine ⟨A, q, B, Y, hAB, ?_⟩
  rw [← hY, upTo_succ hs, hAB]
  simp

/-- The name is bound by none of the events. -/
def Unbound (n : String) (es : List Event) : Prop := ∀ e ∈ es, e.name = n → e.binding? = none

theorem Unbound.marks {b : Block} {n : String} {i k : Nat} {u : Stmt}
    (h : Unbound n (upTo b i).1) (hk : k < i) (hu : b[k]? = some u) : .bind n ∉ stmtMarks u := by
  intro hmark
  obtain ⟨e, he, hbind⟩ := exists_event_of_mark [0] (upTo b k).2 rfl hmark
  obtain ⟨hname, hne⟩ := mark?_eq_bind.mp hbind
  exact hne (h e (eventsAt_subset_upTo hu hk he) hname)

/-- What a later statement reads inside the block where `e` happens, if `e` is an event of an
earlier one, is read inside the block itself. -/
theorem place_of_earlier {b : Block} {j : Nat} {s : Stmt} {e : Event} {home q : Place} {n : String}
    (he : e ∈ (upTo b j).1) (hplace : e.place? = some home) (hread : .read n q ∈ eventsAt b j s)
    (hhome : home <+: q) : home = [0] := by
  rcases (located_stmts [0] (b.take j) 1).2 e he home hplace with ⟨h, -⟩ | ⟨k, -, hk, hpre⟩
  · exact h
  · rcases (located_stmt [0] s (upTo b j).2).2 (.read n q) hread q rfl with
      ⟨rfl, -⟩ | ⟨k', hk', -, hpre'⟩
    · exact absurd (hpre.trans hhome) not_prefix_self
    · -- blocks in different statements have different numbers
      have hsame := List.prefix_of_prefix_length_le (hpre.trans hhome) hpre' le_rfl
      obtain rfl : k = k' := by simpa using hsame.eq_of_length rfl
      have hk : k < (upTo b j).2 := hk
      omega

section

variable {b : Block} (hb : ∀ s ∈ b, IsStraight s)

include hb

/-- The first event that binds a name which is not assigned again, if it is at the place of the
block, makes its statement the sole source of the name. -/
theorem soleSource {n : String} {v : Expr} {i : Nat} {t : Stmt} {A B : List Event} {e : Event}
    {d : NodeId} (ht : b[i]? = some t) (hat : eventsAt b i t = A ++ e :: B) (hname : e.name = n)
    (hbind : e.binding? = some ([0], d, some v)) (hfirst : Unbound n ((upTo b i).1 ++ A))
    (hassign : (track n (events b)).info.assignments = 0) : SoleSource b n v i := by
  subst hname
  obtain ⟨Y, hY⟩ := upTo_prefix_events b (i + 1)
  have hevents : events b = (upTo b i).1 ++ A ++ e :: (B ++ Y) := by
    rw [← hY, upTo_succ ht, hat]
    simp
  have hbefore : Unbound e.name (upTo b i).1 := fun e' he' => hfirst e' (by simp [he'])
  refine ⟨⟨t, ht, ?_⟩, fun k u hk hu => hbefore.marks hk hu, ?_⟩
  · have he : e ∈ eventsAt b i t := by simp [hat]
    exact bindsTo_of_binding (hb t (List.mem_of_getElem? ht)) he hbind
  · intro k u hu hassigns
    cases u with
    | assign id targets values =>
        obtain ⟨w, hw⟩ := exists_assign_event [0] id hassigns
          (if targets.length = values.length then values.map some else [])
          (exprsEvents [0] values (upTo b k).2).2
        have hmem : .assign e.name [0] id w ∈ eventsAt b k (.assign id targets values) :=
          List.mem_append_right _ hw
        rcases Nat.lt_trichotomy k i with hk | hk | hk
        · have hnone := hbefore _ (eventsAt_subset_upTo hu hk hmem) rfl
          contradiction
        · exact hk
        · rw [hevents] at hassign
          have hlater := not_assigned_after_binding (by rw [hbind]; rfl) hassign _
            (eventsAt_subset_rest ht hu hk hat hevents hmem)
          simp [Event.isAssignOf] at hlater
    | _ => exact hassigns.elim

/-- What is answered for a read of a temporary is the value of its first binding, before the read:
by an earlier statement, by the assignment itself if the read stands in one of its targets, or else
in a function body of the same statement.  It does not mention the temporary, and unless it is a name
the temporary is read nowhere else. -/
theorem value_of_read (options : Options) {j : Nat} {s : Stmt} (hs : b[j]? = some s) {n : String}
    (hread : .read n ∈ stmtMarks s) {v : Expr}
    (hv : (Context.mk options b.usage).substitute (.name n) = some v) :
    v.mentions n = false ∧ (v.name? = none → b.marks.count (.read n) = 1) ∧
      ((∃ i < j, SoleSource b n v i) ∨
        (SoleSource b n v j ∧
          ∃ id targets values, s = .assign id targets values ∧ .read n ∈ targetsMarks targets) ∨
        (∃ e ∈ parts s, .bind n ∈ exprMarks e) ∧
          ∀ k u, k < j → b[k]? = some u → .bind n ∉ stmtMarks u) := by
  obtain ⟨m, var, hm, htemp, hvalue, hinline⟩ := substitute_eq_some hv
  obtain rfl : n = m := by simpa using hm
  obtain ⟨-, hget, hescapes⟩ := temporary_eq_some.mp htemp
  obtain rfl := eq_track_of_get? hget
  refine ⟨mentions_of_inlinable hinline, fun hname => ?_, ?_⟩
  · rw [count_read_marks]
    exact reads_of_inlinable hinline hname
  have hassign := assignments_of_inlinable hinline
  have hstraight := hb s (List.mem_of_getElem? hs)
  obtain ⟨d, hd⟩ := declared_of_value hvalue
  obtain ⟨A, q, B, Y, hAB, hevents⟩ := split_read hs hread
  have hread : .read n q ∈ eventsAt b j s := by simp [hAB]
  rw [hevents] at hd hescapes hvalue
  obtain ⟨P, e, Q, home, hP, hfirst, hname, hbind, hhome⟩ :=
    split_binding_before_read hd hescapes
  rw [hvalue] at hbind
  rcases split_append hP with ⟨Q', hQ'⟩ | ⟨C, rfl, rfl⟩
  · -- the binding is one of an earlier statement
    obtain ⟨i, hi, t, A', B', ht, hat, rfl⟩ := exists_stmt_of_upTo hQ'
    have he : e ∈ (upTo b j).1 := by simp [hQ']
    obtain rfl := place_of_earlier he (place?_of_binding hbind) hread hhome
    exact .inl ⟨i, hi, soleSource hb ht hat hname hbind hfirst hassign⟩
  · -- the binding is one of the statement itself
    have hat : eventsAt b j s = C ++ e :: (Q ++ .read n q :: B) := by
      rw [hAB]
      simp
    by_cases hhere : home = [0]
    · subst hhere
      refine .inr (.inl ⟨soleSource hb hs hat hname hbind hfirst hassign, ?_⟩)
      exact read_target hstraight hat hbind (q := q) (by simp)
    · refine .inr (.inr ⟨?_, fun k u hk hu => ?_⟩)
      · have hmem : e ∈ eventsAt b j s := by simp [hat]
        rw [← hname]
        exact bind_mem_parts hstraight hmem hbind hhere
      · have hbefore : Unbound n (upTo b j).1 := fun e' he' => hfirst e' (by simp [he'])
        exact hbefore.marks hk hu

end

/-- `local _1 = inst[OP_A]; x = _1`. -/
def element : Block :=
  [.declare 1 ["_1"] [.index (.name "inst") (.name "OP_A")], .assign 2 [.name "x"] [.name "_1"]]

theorem value_of_read_element :
    (∀ s ∈ element, IsStraight s) ∧ element[1]? = some (.assign 2 [.name "x"] [.name "_1"]) ∧
      .read "_1" ∈ stmtMarks (.assign 2 [.name "x"] [.name "_1"]) ∧
      (Context.mk .standard element.usage).substitute (.name "_1")
        = some (.index (.name "inst") (.name "OP_A")) ∧
      element.marks.count (.read "_1") = 1 := by
  have hb : ∀ s ∈ element, IsStraight s := by simp [element, IsStraight]
  have hs : element[1]? = some (.assign 2 [.name "x"] [.name "_1"]) := rfl
  have hread : .read "_1" ∈ stmtMarks (.assign 2 [.name "x"] [.name "_1"]) := by decide
  have hv : (Context.mk .standard element.usage).substitute (.name "_1")
      = some (.index (.name "inst") (.name "OP_A")) := rfl
  exact ⟨hb, hs, hread, hv, (value_of_read hb .standard hs hread hv).2.1 rfl⟩

/-! ## What is not tracked -/

/-- The statement itself binds the name. -/
def Binds (n : String) : Stmt → Prop
  | .declare _ names _ => n ∈ names
  | .assign _ targets _ => .name n ∈ targets
  | _ => False

def StoresElement : Stmt → Prop
  | .assign _ targets _ => ∃ t k, .index t k ∈ targets
  | _ => False

/-- Statement `j` of the straight-line block reads the name, for which the value is answered. -/
def Inlined (b : Block) (j : Nat) (n : String) (v : Expr) : Prop :=
  (∀ s ∈ b, IsStraight s) ∧ (∃ s, b[j]? = some s ∧ .read n ∈ stmtMarks s) ∧
    (Context.mk .standard b.usage).substitute (.name n) = some v

/-- A statement before `j` binds the name to the value, and no statement in between satisfies `P`. -/
def FromBefore (b : Block) (j : Nat) (n : String) (v : Expr) (P : Stmt → Prop) : Prop :=
  ∃ i < j, ∃ t, b[i]? = some t ∧ BindsTo n v t ∧
    ∀ k u, i < k → k < j → b[k]? = some u → ¬ P u

/-- `local _1 = t[k]; k = y; t[k] = z; x = _1`. -/
def overwritten : Block :=
  [.declare 1 ["_1"] [.index (.name "t") (.name "k")],
   .assign 2 [.name "k"] [.name "y"],
   .assign 3 [.index (.name "t") (.name "k")] [.name "z"],
   .assign 4 [.name "x"] [.name "_1"]]

/-- `local _1 = x; local _1 = y; t[_1] = z`. -/
def redeclared : Block :=
  [.declare 1 ["_1"] [.name "x"], .declare 2 ["_1"] [.name "y"],
   .assign 3 [.index (.name "t") (.name "_1")] [.name "z"]]

/-- `_1, t[_1] = x, y`. -/
def selfRead : Block :=
  [.assign 1 [.name "_1", .index (.name "t") (.name "_1")] [.name "x", .name "y"]]

theorem bindsTo_overwritten {i : Nat} {t : Stmt} {v : Expr} (ht : overwritten[i]? = some t)
    (h : BindsTo "_1" v t) : i = 0 := by
  match i, ht with
  | 0, _ => rfl
  | 1, ht | 2, ht | 3, ht =>
      cases ht
      simp [BindsTo, paired] at h

theorem bindsTo_redeclared {i : Nat} {t : Stmt} (ht : redeclared[i]? = some t)
    (h : BindsTo "_1" (.name "x") t) : i = 0 := by
  match i, ht with
  | 0, _ => rfl
  | 1, ht | 2, ht =>
      cases ht
      simp [BindsTo, paired] at h

/-- An element is inlined after its key and the element itself have been assigned; the value of a
first `local` is inlined after a second one; and a target may read what the assignment binds. -/
theorem value_of_read_after_writes :
    (Inlined overwritten 3 "_1" (.index (.name "t") (.name "k")) ∧
      ¬ FromBefore overwritten 3 "_1" (.index (.name "t") (.name "k")) (Binds "k") ∧
      ¬ FromBefore overwritten 3 "_1" (.index (.name "t") (.name "k")) StoresElement) ∧
    (Inlined redeclared 2 "_1" (.name "x") ∧
      ¬ FromBefore redeclared 2 "_1" (.name "x") (Binds "_1")) ∧
    Inlined selfRead 0 "_1" (.name "x") ∧
      ¬ FromBefore selfRead 0 "_1" (.name "x") fun _ => False := by
  refine ⟨⟨?_, ?_, ?_⟩, ⟨?_, ?_⟩, ?_, ?_⟩
  · exact ⟨by simp [overwritten, IsStraight], ⟨_, rfl, by decide⟩, rfl⟩
  · rintro ⟨i, -, t, ht, hbinds, hbetween⟩
    obtain rfl := bindsTo_overwritten ht hbinds
    exact hbetween 1 _ (by decide) (by decide) rfl (by simp [Binds])
  · rintro ⟨i, -, t, ht, hbinds, hbetween⟩
    obtain rfl := bindsTo_overwritten ht hbinds
    exact hbetween 2 _ (by decide) (by decide) rfl ⟨_, _, List.mem_singleton_self _⟩
  · exact ⟨by simp [redeclared, IsStraight], ⟨_, rfl, by decide⟩, rfl⟩
  · rintro ⟨i, -, t, ht, hbinds, hbetween⟩
    obtain rfl := bindsTo_redeclared ht hbinds
    exact hbetween 1 _ (by decide) (by decide) rfl (by simp [Binds])
  · exact ⟨by simp [selfRead, IsStraight], ⟨_, rfl, by decide⟩, rfl⟩
  · rintro ⟨i, hi, -⟩
    exact Nat.not_lt_zero i hi

end Inlining

end Devirt
