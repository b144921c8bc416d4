import Devirt.Proofs.Scoping
import Mathlib.Tactic

set_option autoImplicit false

/-! # The usage table knows scopes

The usage analysis compares places, the scopes of `Scoping` list statements; both see the same.
A reading of a tree (`Tracks`) goes through events and occurrences side by side, and keeps up
that every binding event whose place encloses the current one belongs to a statement in scope
(`Passed`).  It follows that a name which is declared and does not escape is read in scope of its
declaration only (`declaration_in_scope`). -/

namespace Devirt

namespace Scoping

open Usage

/-! ## Events passed on the way to a place -/

/-- The event is a binding at this place by the statement with this identity. -/
def Binds (e : Event) (home : Place) (d : NodeId) : Prop :=
  ∃ v, e.binding? = some (home, d, v)

theorem not_binds {e : Event} (h : e.binding? = none) {home : Place} {d : NodeId} :
    ¬ Binds e home d := by
  rintro ⟨v, hv⟩
  rw [h] at hv
  contradiction

/-- The binding events whose places enclose `place` belong to statements in scope. -/
def InForce (past : List Event) (place : Place) (Γ : Scope) : Prop :=
  ∀ e ∈ past, ∀ home d, Binds e home d → home <+: place → ∃ β ∈ Γ, β.id = d ∧ e.name ∈ β.names

/-- Before a tree at `place` with the scope `Γ`: all blocks passed or open have lower numbers than
`next`. -/
structure Passed (past : List Event) (place : Place) (next : Nat) (Γ : Scope) : Prop where
  inForce : InForce past place Γ
  past_lt : ∀ e ∈ past, ∀ home d, Binds e home d → ∀ k ∈ home, k < next
  open_lt : ∀ k ∈ place, k < next

namespace Passed

variable {past : List Event} {place : Place} {next : Nat} {Γ Δ : Scope}

theorem mono (h : Passed past place next Γ) (hsub : ∀ β ∈ Γ, β ∈ Δ) :
    Passed past place next Δ := by
  refine ⟨?_, h.past_lt, h.open_lt⟩
  intro e he home d hb hp
  obtain ⟨β, hβ, hrest⟩ := h.inForce e he home d hb hp
  exact ⟨β, hsub β hβ, hrest⟩

theorem silent (h : Passed past place next Γ) {es : List Event}
    (hes : ∀ e ∈ es, e.binding? = none) : Passed (past ++ es) place next Γ := by
  refine ⟨?_, ?_, h.open_lt⟩
  · intro e he home d hb hp
    rcases List.mem_append.mp he with he | he
    · exact h.inForce e he home d hb hp
    · exact absurd hb (not_binds (hes e he))
  · intro e he home d hb
    rcases List.mem_append.mp he with he | he
    · exact h.past_lt e he home d hb
    · exact absurd hb (not_binds (hes e he))

/-- No block passed before encloses a block that is entered now, unless it is open. -/
theorem enter (h : Passed past place next Γ) : Passed past (place ++ [next]) (next + 1) Γ := by
  refine ⟨?_, ?_, ?_⟩
  · intro e he home d hb hp
    rcases List.prefix_concat_iff.mp hp with rfl | hp
    · -- the block is new: nothing passed has its number
      have hlt := h.past_lt e he _ d hb next (by simp)
      omega
    · exact h.inForce e he home d hb hp
  · intro e he home d hb k hk
    have := h.past_lt e he home d hb k hk
    omega
  · intro k hk
    rcases List.mem_append.mp hk with hk | hk
    · have := h.open_lt k hk
      omega
    · rw [List.mem_singleton] at hk
      omega

end Passed

/-! ## Readings -/

/-- What the events `es` and the occurrences `xs` of a tree at `place` have to do with each other,
after the events `past`. -/
structure Run (past : List Event) (place : Place) (xs : List Occurrence) (es : List Event) :
    Prop where
  inside : ∀ e ∈ es, ∀ home d, Binds e home d → place <+: home
  reads : ∀ n Θ, .read n Θ ∈ xs →
    ∃ pre post here, es = pre ++ .read n here :: post ∧ InForce (past ++ pre) here Θ
  binds : ∀ e ∈ es, ∀ home d v, e.binding? = some (home, d, v) →
    ∃ β values Θ, .bind β values Θ ∈ xs ∧ β.id = d ∧ ∀ x, v = some x → x ∈ values

/-- The reading of a tree at `place` leads from the scope `Γ` to the scope `Δ`. -/
def Tracks (place : Place) (Γ Δ : Scope) (next : Nat) (xs : List Occurrence)
    (r : List Event × Nat) : Prop :=
  ∀ past, Passed past place next Γ → Passed (past ++ r.1) place r.2 Δ ∧ Run past place xs r.1

namespace Tracks

variable {place : Place} {Γ Δ Θ : Scope} {next : Nat} {xs ys : List Occurrence}
  {r : List Event × Nat}

theorem nil : Tracks place Γ Γ next [] ([], next) := by
  intro past h
  rw [List.append_nil]
  exact ⟨h, by simp, by simp, by simp⟩

theorem mono (h : Tracks place Γ Δ next xs r) (hsub : ∀ β ∈ Δ, β ∈ Θ) :
    Tracks place Γ Θ next xs r := by
  intro past hp
  obtain ⟨hpassed, hrun⟩ := h past hp
  exact ⟨hpassed.mono hsub, hrun⟩

/-- The order of the occurrences does not matter. -/
theorem congr (h : Tracks place Γ Δ next xs r) (hmem : ∀ i, i ∈ ys ↔ i ∈ xs) :
    Tracks place Γ Δ next ys r := by
  intro past hp
  obtain ⟨hpassed, hrun⟩ := h past hp
  refine ⟨hpassed, hrun.inside, fun n Θ hn => hrun.reads n Θ ((hmem _).mp hn), ?_⟩
  intro e he home d v hb
  obtain ⟨β, values, Θ, hβ, hrest⟩ := hrun.binds e he home d v hb
  exact ⟨β, values, Θ, (hmem _).mpr hβ, hrest⟩

/-- One reading after the other. -/
theorem seq (h : Tracks place Γ Δ next xs r) {f : Nat → List Event × Nat}
    (hf : ∀ next, Tracks place Δ Θ next ys (f next)) :
    Tracks place Γ Θ next (xs ++ ys) (r.1 ++ (f r.2).1, (f r.2).2) := by
  intro past hp
  obtain ⟨hpassed, hx⟩ := h past hp
  obtain ⟨hpassed', hy⟩ := hf r.2 (past ++ r.1) hpassed
  rw [List.append_assoc] at hpassed'
  refine ⟨hpassed', ?_, ?_, ?_⟩
  · intro e he home d hb
    rcases List.mem_append.mp he with he | he
    · exact hx.inside e he home d hb
    · exact hy.inside e he home d hb
  · intro n Ξ hn
    rcases List.mem_append.mp hn with hn | hn
    · obtain ⟨pre, post, here, hes, hforce⟩ := hx.reads n Ξ hn
      exact ⟨pre, post ++ (f r.2).1, here, by simp [hes], hforce⟩
    · obtain ⟨pre, post, here, hes, hforce⟩ := hy.reads n Ξ hn
      rw [List.append_assoc] at hforce
      exact ⟨r.1 ++ pre, post, here, by simp [hes], hforce⟩
  · intro e he home d v hb
    rcases List.mem_append.mp he with he | he
    · obtain ⟨β, values, Ξ, hβ, hrest⟩ := hx.binds e he home d v hb
      exact ⟨β, values, Ξ, List.mem_append.mpr (.inl hβ), hrest⟩
    · obtain ⟨β, values, Ξ, hβ, hrest⟩ := hy.binds e he home d v hb
      exact ⟨β, values, Ξ, List.mem_append.mpr (.inr hβ), hrest⟩

/-- After a block the scope is what it was before. -/
theorem block (h : Tracks (place ++ [next]) Γ Δ (next + 1) xs r) :
    Tracks place Γ Γ next xs r := by
  intro past hp
  obtain ⟨hpassed, hrun⟩ := h past hp.enter
  have hinside : ∀ e ∈ r.1, ∀ home d, Binds e home d → place <+: home := by
    intro e he home d hb
    have hnext := hrun.inside e he home d hb
    exact (List.prefix_append place [next]).trans hnext
  refine ⟨⟨?_, hpassed.past_lt, fun k hk => hpassed.open_lt k (List.mem_append.mpr (.inl hk))⟩,
    hinside, hrun.reads, hrun.binds⟩
  intro e he home d hb hhome
  rcases List.mem_append.mp he with he | he
  · exact hp.inForce e he home d hb hhome
  · -- a binding inside the block is no longer in force outside
    have hlen := ((hrun.inside e he home d hb).trans hhome).length_le
    rw [List.length_append, List.length_singleton] at hlen
    omega

theorem read (n : String) : Tracks place Γ Γ next [.read n Γ] ([.read n place], next) := by
  intro past hp
  have hsilent : ∀ e ∈ [Event.read n place], e.binding? = none := by simp [Event.binding?]
  refine ⟨hp.silent hsilent, ?_, ?_, ?_⟩
  · exact fun e he home d hb => absurd hb (not_binds (hsilent e he))
  · intro m Θ hm
    obtain ⟨rfl, rfl⟩ : m = n ∧ Θ = Γ := by simpa using hm
    exact ⟨[], [], place, rfl, by rw [List.append_nil]; exact hp.inForce⟩
  · exact fun e he home d v hb => absurd ⟨v, hb⟩ (not_binds (hsilent e he))

theorem introduce (names : List String) :
    Tracks place Γ Γ next [] (names.map .introduce, next) := by
  intro past hp
  have hsilent : ∀ e ∈ names.map Event.introduce, e.binding? = none := by simp [Event.binding?]
  refine ⟨hp.silent hsilent, ?_, by simp, ?_⟩
  · exact fun e he home d hb => absurd hb (not_binds (hsilent e he))
  · exact fun e he home d v hb => absurd ⟨v, hb⟩ (not_binds (hsilent e he))

/-- The events of a statement that binds names at this place. -/
theorem bindings {β : Binding} {values : List Expr} {Ξ : Scope} {es : List Event}
    (h : ∀ e ∈ es, e.name ∈ β.names ∧ ∃ v, e.binding? = some (place, β.id, v) ∧
      ∀ x, v = some x → x ∈ values) :
    Tracks place Γ (β :: Γ) next [.bind β values Ξ] (es, next) := by
  intro past hp
  have hhome : ∀ e ∈ es, ∀ home d, Binds e home d → home = place ∧ d = β.id := by
    rintro e he home d ⟨v, hb⟩
    obtain ⟨-, v', hb', -⟩ := h e he
    rw [hb] at hb'
    cases hb'
    exact ⟨rfl, rfl⟩
  refine ⟨⟨?_, ?_, hp.open_lt⟩, ⟨?_, by simp, ?_⟩⟩
  · intro e he home d hb hprefix
    rcases List.mem_append.mp he with he | he
    · obtain ⟨γ, hγ, hrest⟩ := hp.inForce e he home d hb hprefix
      exact ⟨γ, List.mem_cons_of_mem _ hγ, hrest⟩
    · exact ⟨β, by simp, (hhome e he home d hb).2.symm, (h e he).1⟩
  · intro e he home d hb
    rcases List.mem_append.mp he with he | he
    · exact hp.past_lt e he home d hb
    · rw [(hhome e he home d hb).1]
      exact hp.open_lt
  · intro e he home d hb
    rw [(hhome e he home d hb).1]
  · intro e he home d v hb
    obtain ⟨-, v', hb', hvalues⟩ := h e he
    rw [hb] at hb'
    cases hb'
    exact ⟨β, values, Ξ, by simp, rfl, hvalues⟩

end Tracks

/-! ## Readings of trees -/

theorem tracks_declare {place : Place} (Γ : Scope) (id : NodeId) (names : List String)
    (values : List Expr) (next : Nat) :
    Tracks place Γ (⟨id, true, names⟩ :: Γ) next [.bind ⟨id, true, names⟩ values Γ]
      ((paired names values).map fun p => .declare p.1 place id p.2, next) := by
  refine Tracks.bindings fun e he => ?_
  obtain ⟨p, hp, rfl⟩ := List.mem_map.mp he
  have hpaired : p.1 ∈ names ∧ ∀ x, p.2 = some x → x ∈ values := by
    unfold paired at hp
    split at hp
    · obtain ⟨hname, hvalue⟩ := List.of_mem_zip hp
      refine ⟨hname, fun x hx => ?_⟩
      rw [hx] at hvalue
      simpa using hvalue
    · obtain ⟨n, hn, rfl⟩ := List.mem_map.mp hp
      exact ⟨hn, by simp⟩
  exact ⟨hpaired.1, p.2, rfl, hpaired.2⟩

-- On the tree.  A block is entered with the next free number, and left with the scope it was
-- entered with.
mutual

theorem tracks_expr (place : Place) (Γ : Scope) : (e : Expr) → (next : Nat) →
    Tracks place Γ Γ next (exprOccs Γ e) (exprEvents place e next)
  | .nil, _ | .bool _, _ | .number _, _ | .string _, _ | .vararg, _ => .nil
  | .name n, _ => .read n
  | .binary _ l k, next => .seq (tracks_expr place Γ l next) (tracks_expr place Γ k)
  | .unary _ e, next => tracks_expr place Γ e next
  | .member o _, next => tracks_expr place Γ o next
  | .index t k, next => .seq (tracks_expr place Γ t next) (tracks_expr place Γ k)
  | .call f args, next => .seq (tracks_expr place Γ f next) (tracks_exprs place Γ args)
  | .table entries, next => tracks_entries place Γ entries next
  | .function params _ body, _ =>
      .seq (.introduce params) fun next => .block (tracks_stmts (place ++ [next]) Γ body (next + 1))

theorem tracks_exprs (place : Place) (Γ : Scope) : (es : List Expr) → (next : Nat) →
    Tracks place Γ Γ next (exprsOccs Γ es) (exprsEvents place es next)
  | [], _ => .nil
  | e :: es, next => .seq (tracks_expr place Γ e next) (tracks_exprs place Γ es)

theorem tracks_entries (place : Place) (Γ : Scope) : (es : List Entry) → (next : Nat) →
    Tracks place Γ Γ next (entriesOccs Γ es) (entriesEvents place es next)
  | [], _ => .nil
  | .positional v :: es, next => .seq (tracks_expr place Γ v next) (tracks_entries place Γ es)
  | .keyed k v :: es, next =>
      .seq (.seq (tracks_expr place Γ k next) (tracks_expr place Γ v)) (tracks_entries place Γ es)

/-- The targets of an assignment that is in scope already. -/
theorem tracks_targets (place : Place) (Γ : Scope) (β : Binding) (hβ : β ∈ Γ)
    (values : List Expr) (Ξ : Scope) : (es : List Expr) →
    (∀ n, .name n ∈ es → n ∈ β.names) → (vs : List (Option Expr)) →
    (∀ x, some x ∈ vs → x ∈ values) → (next : Nat) →
    Tracks place Γ Γ next (.bind β values Ξ :: targetsOccs Γ es)
      (targetsEvents place β.id vs es next)
  | [], _, _, _, next => by
      have h : Tracks place Γ (β :: Γ) next [.bind β values Ξ] ([], next) := .bindings (by simp)
      exact h.mono (by simp [hβ])
  | e :: es, hnames, vs, hvs, next => by
      have hrest := tracks_targets place Γ β hβ values Ξ es
        (fun n hn => hnames n (List.mem_cons_of_mem _ hn)) (vs.drop 1)
        (fun x hx => hvs x (List.mem_of_mem_drop hx))
      cases hname : e.name? with
      | none =>
          rw [targetsEvents_cons hname]
          refine (Tracks.seq (tracks_expr place Γ e next) hrest).congr fun i => ?_
          simp [targetsOccs, hname, or_left_comm]
      | some n =>
          obtain rfl := eq_name_of_name? hname
          have hvalue : ∀ x, vs.head?.join = some x → x ∈ values := by
            intro x hx
            cases vs with
            | nil => contradiction
            | cons v vs => exact hvs x (by simp [show v = some x from hx])
          have hhead : Tracks place Γ (β :: Γ) next [.bind β values Ξ]
              ([.assign n place β.id vs.head?.join], next) := by
            refine .bindings fun e he => ?_
            obtain rfl := List.mem_singleton.mp he
            exact ⟨hnames n (by simp), _, rfl, hvalue⟩
          refine (Tracks.seq (hhead.mono (by simp [hβ])) hrest).congr fun i => ?_
          simp [targetsOccs, hname]

theorem tracks_stmt (place : Place) (Γ : Scope) : (s : Stmt) → (next : Nat) →
    Tracks place Γ (after Γ s) next (stmtOccs Γ s) (stmtEvents place s next)
  | .declare id names values, next => by
      refine (Tracks.seq (tracks_exprs place Γ values next)
        (tracks_declare Γ id names values)).congr ?_
      intro i
      simp [stmtOccs, or_comm]
  | .assign id targets values, next => by
      have hvs : ∀ x, some x ∈ (if targets.length = values.length then values.map some else []) →
          x ∈ values := by
        intro x hx
        split at hx <;> simp_all
      have htargets := tracks_targets place (⟨id, false, targets.filterMap Expr.name?⟩ :: Γ)
        ⟨id, false, targets.filterMap Expr.name?⟩ (by simp) values Γ targets
        (fun n hn => List.mem_filterMap.mpr ⟨_, hn, rfl⟩) _ hvs
      refine (Tracks.seq ((tracks_exprs place Γ values next).mono ?_) htargets).congr fun i => ?_
      · exact fun β hβ => List.mem_cons_of_mem _ hβ
      · simp [stmtOccs, or_left_comm]
  | .call f args, next => .seq (tracks_expr place Γ f next) (tracks_exprs place Γ args)
  | .scope body, next => .block (tracks_stmts (place ++ [next]) Γ body (next + 1))
  | .branch clauses none, next => tracks_clauses place Γ clauses next
  | .branch clauses (some body), next =>
      .seq (tracks_clauses place Γ clauses next) fun next =>
        .block (tracks_stmts (place ++ [next]) Γ body (next + 1))
  | .whileLoop cond body, next =>
      .seq (tracks_expr place Γ cond next) fun next =>
        .block (tracks_stmts (place ++ [next]) Γ body (next + 1))
  | .repeatLoop body cond, next =>
      .block (.seq (tracks_stmts (place ++ [next]) Γ body (next + 1))
        (tracks_expr (place ++ [next]) _ cond))
  | .numericFor var start limit none body, next =>
      .seq (.seq (tracks_expr place Γ start next) (tracks_expr place Γ limit)) fun next =>
        .seq (.introduce [var]) fun next =>
          .block (tracks_stmts (place ++ [next]) Γ body (next + 1))
  | .numericFor var start limit (some step) body, next =>
      .seq (.seq (.seq (tracks_expr place Γ start next) (tracks_expr place Γ limit))
        (tracks_expr place Γ step)) fun next =>
        .seq (.introduce [var]) fun next =>
          .block (tracks_stmts (place ++ [next]) Γ body (next + 1))
  | .genericFor names exprs body, next => by
      refine (Tracks.seq (.seq (tracks_exprs place Γ exprs next) fun _ => .introduce names)
        fun next => .block (tracks_stmts (place ++ [next]) Γ body (next + 1))).congr ?_
      intro i
      rw [List.append_nil]
      rfl
  | .ret values, next => tracks_exprs place Γ values next
  | .brk, _ => .nil

theorem tracks_stmts (place : Place) (Γ : Scope) : (b : List Stmt) → (next : Nat) →
    Tracks place Γ (afterAll Γ b) next (stmtsOccs Γ b) (stmtsEvents place b next)
  | [], _ => .nil
  | s :: b, next => .seq (tracks_stmt place Γ s next) (tracks_stmts place (after Γ s) b)

theorem tracks_clauses (place : Place) (Γ : Scope) : (cs : List Clause) → (next : Nat) →
    Tracks place Γ Γ next (clausesOccs Γ cs) (clausesEvents place cs next)
  | [], _ => .nil
  | .mk cond body :: cs, next =>
      .seq (.seq (tracks_expr place Γ cond next) fun next =>
        .block (tracks_stmts (place ++ [next]) Γ body (next + 1))) (tracks_clauses place Γ cs)

end

/-! ## What the table knows -/

/-- Side by side from the beginning of a block. -/
theorem run_block (b : Block) : Run [] [0] (occurrences b) (events b) := by
  have hstart : Passed [] [0] 1 [] := ⟨by simp [InForce], by simp, by simp⟩
  exact (tracks_stmts [0] [] b 1 [] hstart).2

/-- What is read has an entry with reads. -/
theorem reads_pos {b : Block} {n : String} {Γ : Scope} (h : .read n Γ ∈ occurrences b) :
    ∃ v, b.usage.get? n = some v ∧ 0 < v.reads := by
  obtain ⟨pre, post, place, hes, -⟩ := (run_block b).reads n Γ h
  have hmem : .read n place ∈ events b := by
    rw [hes]
    simp
  exact reads_pos_of_mem hmem

/-- A name that is declared and does not escape is read in scope of its declaration only. -/
theorem declaration_in_scope {b : Block} {n : String} {Γ : Scope}
    (h : .read n Γ ∈ occurrences b) {v : Variable} (hv : b.usage.get? n = some v)
    (hesc : v.escapes = false) {d : NodeId} (hd : v.declaration = some d) :
    ∃ β ∈ Γ, β.id = d ∧ n ∈ β.names := by
  obtain ⟨pre, post, place, hes, hforce⟩ := (run_block b).reads n Γ h
  have hv := eq_track_of_get? hv
  rw [hv] at hesc hd
  rw [show events b = _ from hes] at hesc hd
  obtain ⟨e, he, home, rfl, hbind, hprefix⟩ := binding_before_read hd hesc
  exact hforce e he home d ⟨_, hbind⟩ hprefix

/-- The value of a name stands in a statement with the identity of its declaration. -/
theorem value_of_declaration {b : Block} {n : String} {v : Variable}
    (hv : b.usage.get? n = some v) {d : NodeId} (hd : v.declaration = some d) {x : Expr}
    (hx : v.value = some x) :
    ∃ β values Γ, .bind β values Γ ∈ occurrences b ∧ β.id = d ∧ x ∈ values := by
  have hv := eq_track_of_get? hv
  rw [hv] at hd hx
  obtain ⟨e, he, place, -, hbind, -⟩ := exists_first_binding rfl hd
  rw [show (trackFrom n .fresh (events b)).info.value = some x from hx] at hbind
  obtain ⟨β, values, Γ, hmem, hid, hvalue⟩ := (run_block b).binds e he place d (some x) hbind
  exact ⟨β, values, Γ, hmem, hid, hvalue x rfl⟩

end Scoping

end Devirt
