import Devirt.Proofs.Expansion
import Devirt.Proofs.UsageTable

set_option autoImplicit false

/-! # Chains of declarations

A chain declares names one after the other, each with a value that is built from names, and ends with
an assignment to an element of a table.  It is sound if a name that counts as a temporary is declared
once, and before it is read.

Of a sound chain the usage table is known exactly: the entry of a declared name has its value, and as
many reads as there are (`usage_link`).  What a name expands to, and how many replacements that takes,
is computed along the declarations; `solve_link` says that this solves the equations one expects, of
every declared name and its value. -/

namespace Devirt

open Walk

/-- The names of an expression built from names, from left to right. -/
def Expr.names : Expr → List String
  | .name n => [n]
  | .index t k => t.names ++ k.names
  | .binary _ l r => l.names ++ r.names
  | _ => []

theorem Expr.names_fork (f : Expr.Fork) (l r : Expr) : (f.of l r).names = l.names ++ r.names := by
  cases f <;> rfl

theorem Expr.builtFrom_names {P Q : String → Prop} {e : Expr} (h : e.BuiltFrom P) :
    e.BuiltFrom Q ↔ ∀ n ∈ e.names, Q n := by
  induction h using Expr.BuiltFrom.rec_fork with
  | name n hn => simp [Expr.BuiltFrom, names]
  | fork f l r _ _ ihl ihr =>
      rw [Expr.builtFrom_fork, names_fork, List.forall_mem_append, ihl, ihr]

/-- A declaration of one name, with its value. -/
structure Link where
  id : NodeId
  name : String
  value : Expr

def Link.stmt (l : Link) : Stmt := .declare l.id [l.name] [l.value]

/-- Declarations, and then an assignment to an element of a table. -/
structure Chain where
  links : List Link
  id : NodeId
  table : String
  key : Expr
  value : Expr

namespace Chain

def block (c : Chain) : Block :=
  c.links.map Link.stmt ++ [.assign c.id [.index (.name c.table) c.key] [c.value]]

/-- The assignment of the chain. -/
def ending (c : Chain) : Stmt := .assign c.id [.index (.name c.table) c.key] [c.value]

/-- The names that are read, each as often as it is. -/
def reads (c : Chain) : List String :=
  c.links.flatMap (fun l => l.value.names) ++ (c.value.names ++ c.table :: c.key.names)

/-- The declarations with another statement behind them. -/
def before (c : Chain) (s : Stmt) : Block := c.links.map Link.stmt ++ [s]

/-- The statement reads the names that the assignment of the chain reads, and does nothing else. -/
def ReadsEnd (c : Chain) (s : Stmt) : Prop :=
  ∃ ns : List String, ns.Perm (c.value.names ++ c.table :: c.key.names) ∧
    ∀ next, Usage.stmtEvents [0] s next = (ns.map fun n => .read n [0], next)

/-- The expressions are built from names.  Names of `temp` are declared, each once, and all that are
read; none of them is read before it is declared. -/
structure Sound (temp : String → Prop) (c : Chain) : Prop where
  built : ∀ l ∈ c.links, l.value.BuiltFrom fun _ => True
  value_built : c.value.BuiltFrom fun _ => True
  key_built : c.key.BuiltFrom fun _ => True
  nodup : (c.links.map Link.name).Nodup
  temporary : ∀ l ∈ c.links, temp l.name
  closed : ∀ n ∈ c.reads, temp n → n ∈ c.links.map Link.name
  forward : c.links.Pairwise fun l l' => l'.name ∉ l.value.names
  own : ∀ l ∈ c.links, l.name ∉ l.value.names
  table : ¬ temp c.table

/-! ## The usage table of a chain -/

open Usage

theorem exprEvents_eq {P : String → Prop} {e : Expr} (h : e.BuiltFrom P) (place : Place)
    (next : Nat) : exprEvents place e next = (e.names.map fun n => .read n place, next) := by
  induction h using Expr.BuiltFrom.rec_fork generalizing next with
  | name n hn => rfl
  | fork f l r _ _ ihl ihr =>
      have hfork : exprEvents place (f.of l r) next =
          ((exprEvents place l next).1 ++ (exprEvents place r (exprEvents place l next).2).1,
            (exprEvents place r (exprEvents place l next).2).2) := by
        cases f <;> rfl
      rw [hfork, ihl, ihr, Expr.names_fork, List.map_append]

/-- The events of a declaration, which stands in the outermost block. -/
def linkEvents (l : Link) : List Event :=
  l.value.names.map (fun n => .read n [0]) ++ [.declare l.name [0] l.id (some l.value)]

theorem stmtsEvents_links {links : List Link} (h : ∀ l ∈ links, l.value.BuiltFrom fun _ => True)
    (rest : List Stmt) (next : Nat) :
    stmtsEvents [0] (links.map Link.stmt ++ rest) next =
      (links.flatMap linkEvents ++ (stmtsEvents [0] rest next).1, (stmtsEvents [0] rest next).2) := by
  induction links with
  | nil => rfl
  | cons l links ih =>
      obtain ⟨hl, hlinks⟩ := List.forall_mem_cons.mp h
      rw [List.map_cons, List.cons_append, stmtsEvents]
      simp [Link.stmt, stmtEvents, exprsEvents, exprEvents_eq hl, paired, ih hlinks, linkEvents]

variable {temp : String → Prop} {c : Chain}

theorem readsEnd_ending {P : String → Prop} (hvalue : c.value.BuiltFrom P)
    (hkey : c.key.BuiltFrom P) : c.ReadsEnd c.ending := by
  refine ⟨_, .refl _, fun next => ?_⟩
  simp [ending, stmtEvents, exprsEvents, targetsEvents, exprEvents, exprEvents_eq hvalue,
    exprEvents_eq hkey]

theorem events_before (h : c.Sound temp) {s : Stmt} (hs : c.ReadsEnd s) :
    ∃ ns : List String, ns.Perm (c.value.names ++ c.table :: c.key.names) ∧
      events (c.before s) = c.links.flatMap linkEvents ++ ns.map fun n => .read n [0] := by
  obtain ⟨ns, hperm, hevents⟩ := hs
  refine ⟨ns, hperm, ?_⟩
  rw [events, before, stmtsEvents_links h.built]
  simp [stmtsEvents, hevents]

/-- Reads in the block of the declaration count, and do nothing else. -/
theorem trackFrom_reads {n : String} {place : Place} {t : Tracked} (hhome : t.home = some place)
    {es : List Event} (hes : ∀ e ∈ es, e.name = n → e = .read n place) :
    trackFrom n t es =
      { t with info := { t.info with reads := t.info.reads + es.countP (·.isReadOf n) } } := by
  induction es generalizing t with
  | nil => rfl
  | cons e es ih =>
      obtain ⟨he, htail⟩ := List.forall_mem_cons.mp hes
      rw [trackFrom_cons, List.countP_cons]
      by_cases hname : e.name = n
      · obtain rfl := he hname
        have hread : t.read place = { t with info := { t.info with reads := t.info.reads + 1 } } := by
          simp [Tracked.read, Tracked.usedAt, hhome]
        rw [if_pos hname, Event.apply, hread, ih (by exact hhome) htail]
        simp [Event.isReadOf, Nat.add_assoc, Nat.add_comm 1]
      · have hno : e.isReadOf n = false := by
          by_contra hc
          exact hname (Event.name_eq_of_isReadOf (by simpa using hc))
        rw [if_neg hname, ih hhome htail, hno]
        simp

theorem countP_reads (n : String) (place : Place) (ns : List String) :
    (ns.map fun m => Event.read m place).countP (·.isReadOf n) = ns.count n := by
  rw [List.countP_map, List.count]
  rfl

theorem countP_events (h : c.Sound temp) {s : Stmt} (hs : c.ReadsEnd s) (n : String) :
    (events (c.before s)).countP (·.isReadOf n) = c.reads.count n := by
  have hlinks : ∀ links : List Link, (links.flatMap linkEvents).countP (·.isReadOf n) =
      (links.flatMap fun l => l.value.names).count n := by
    intro links
    induction links with
    | nil => rfl
    | cons l links ih =>
        rw [List.flatMap_cons, List.flatMap_cons, List.countP_append, List.count_append, ih,
          linkEvents, List.countP_append, countP_reads]
        rfl
  obtain ⟨ns, hperm, hevents⟩ := events_before h hs
  rw [hevents, reads, List.countP_append, List.count_append, hlinks, countP_reads,
    hperm.count_eq]

theorem mem_linkEvents {l : Link} {e : Event} (he : e ∈ linkEvents l) :
    (∃ n ∈ l.value.names, e = .read n [0]) ∨ e = .declare l.name [0] l.id (some l.value) := by
  rcases List.mem_append.mp he with he | he
  · obtain ⟨n, hn, rfl⟩ := List.mem_map.mp he
    exact .inl ⟨n, hn, rfl⟩
  · exact .inr (List.mem_singleton.mp he)

/-- Before its declaration no event is about a name, and after it the name is only read. -/
theorem split_events (h : c.Sound temp) {s : Stmt} (hs : c.ReadsEnd s) {l : Link}
    (hl : l ∈ c.links) :
    ∃ early late, events (c.before s) =
        early ++ .declare l.name [0] l.id (some l.value) :: late ∧
      (∀ e ∈ early, e.name ≠ l.name) ∧ ∀ e ∈ late, e.name = l.name → e = .read l.name [0] := by
  obtain ⟨ns, -, hevents⟩ := events_before h hs
  obtain ⟨pre, post, hsplit⟩ := List.append_of_mem hl
  have hnodup := h.nodup
  have hforward := h.forward
  rw [hsplit, List.map_append, List.map_cons, List.nodup_append, List.nodup_cons] at hnodup
  rw [hsplit, List.pairwise_append] at hforward
  obtain ⟨-, ⟨hpost, -⟩, hpre⟩ := hnodup
  refine ⟨pre.flatMap linkEvents ++ l.value.names.map (fun n => .read n [0]),
    post.flatMap linkEvents ++ ns.map (fun n => .read n [0]), ?_, ?_, ?_⟩
  · rw [hevents, hsplit]
    simp [linkEvents]
  · intro e he hname
    rcases List.mem_append.mp he with he | he
    · obtain ⟨l', hl', he⟩ := List.mem_flatMap.mp he
      rcases mem_linkEvents he with ⟨n, hn, rfl⟩ | rfl
      · obtain rfl : n = l.name := hname
        exact hforward.2.2 l' hl' l List.mem_cons_self hn
      · exact hpre _ (List.mem_map_of_mem hl') _ List.mem_cons_self hname
    · obtain ⟨n, hn, rfl⟩ := List.mem_map.mp he
      obtain rfl : n = l.name := hname
      exact h.own l hl hn
  · intro e he hname
    rcases List.mem_append.mp he with he | he
    · obtain ⟨l', hl', he⟩ := List.mem_flatMap.mp he
      rcases mem_linkEvents he with ⟨n, hn, rfl⟩ | rfl
      · obtain rfl : n = l.name := hname
        rfl
      · exact absurd (List.mem_map.mpr ⟨l', hl', hname⟩) hpost
    · obtain ⟨n, hn, rfl⟩ := List.mem_map.mp he
      obtain rfl : n = l.name := hname
      rfl

/-- The entry of a declared name. -/
theorem usage_link (h : c.Sound temp) {s : Stmt} (hs : c.ReadsEnd s) {l : Link}
    (hl : l ∈ c.links) :
    (c.before s).usage.get? l.name =
      some ⟨c.reads.count l.name, 0, some l.id, some l.value, false⟩ := by
  obtain ⟨early, late, hevents, hearly, hlate⟩ := split_events h hs hl
  have htrack : (track l.name (events (c.before s))).info =
      ⟨late.countP (·.isReadOf l.name), 0, some l.id, some l.value, false⟩ := by
    rw [hevents, track, trackFrom_append, trackFrom_of_absent hearly, trackFrom_cons]
    change (trackFrom l.name (if l.name = l.name then _ else _) late).info = _
    rw [if_pos rfl, trackFrom_reads rfl hlate]
    simp [Event.apply, Tracked.declare, Tracked.fresh, Variable.fresh]
  have hreads := reads_track l.name (events (c.before s))
  rw [countP_events h hs, htrack] at hreads
  have hmem : Event.declare l.name [0] l.id (some l.value) ∈ events (c.before s) := by
    simp [hevents]
  have hentry := get?_tabulate_of_mem hmem
  change (c.before s).usage.get? l.name = some (track l.name (events (c.before s))).info at hentry
  rw [hentry, htrack, ← hreads]

/-- The table has no value for a name that is not declared. -/
theorem value_of_not_declared (h : c.Sound temp) {s : Stmt} (hs : c.ReadsEnd s) {n : String}
    (hn : n ∉ c.links.map Link.name) {v : Variable} (hv : (c.before s).usage.get? n = some v) :
    v.value = none := by
  rw [eq_track_of_get? hv]
  by_contra hvalue
  obtain ⟨x, hx⟩ := Option.ne_none_iff_exists'.mp hvalue
  obtain ⟨d, hd⟩ := declared_of_value hx
  obtain ⟨e, he, place, hname, hbind, -⟩ := exists_first_binding rfl hd
  obtain ⟨ns, -, hevents⟩ := events_before h hs
  rw [hevents] at he
  rcases List.mem_append.mp he with he | he
  · obtain ⟨l, hl, he⟩ := List.mem_flatMap.mp he
    rcases mem_linkEvents he with ⟨m, -, rfl⟩ | rfl
    · contradiction
    · exact hn (List.mem_map.mpr ⟨l, hl, hname⟩)
  · obtain ⟨m, -, rfl⟩ := List.mem_map.mp he
    contradiction

theorem names_subset_reads {l : Link} (hl : l ∈ c.links) : ∀ n ∈ l.value.names, n ∈ c.reads :=
  fun _ hn => List.mem_append_left _ (List.mem_flatMap.mpr ⟨l, hl, hn⟩)

/-- What holds of a name as soon as it holds of the temporaries in its value holds of all names. -/
theorem link_induction (h : c.Sound temp) {P : String → Prop}
    (hstep : ∀ l ∈ c.links, (∀ n ∈ l.value.names, temp n → P n) → P l.name) :
    ∀ l ∈ c.links, P l.name := by
  have hprefix : ∀ pre post, c.links = pre ++ post → ∀ l ∈ pre, P l.name := by
    intro pre
    induction pre using List.reverseRecOn with
    | nil => simp
    | append_singleton pre l ih =>
        intro post hsplit
        rw [List.append_assoc, List.singleton_append] at hsplit
        have hpre := ih (l :: post) hsplit
        refine List.forall_mem_append.mpr ⟨hpre, List.forall_mem_singleton.mpr ?_⟩
        have hl : l ∈ c.links := by simp [hsplit]
        have hforward := h.forward
        rw [hsplit, List.pairwise_append, List.pairwise_cons] at hforward
        refine hstep l hl fun n hn htemp => ?_
        -- a temporary in the value is declared, but neither here nor later
        obtain ⟨l', hl', rfl⟩ := List.mem_map.mp (h.closed n (names_subset_reads hl n hn) htemp)
        rw [hsplit, List.mem_append, List.mem_cons] at hl'
        rcases hl' with hl' | rfl | hl'
        · exact hpre l' hl'
        · exact absurd hn (h.own l' hl)
        · exact absurd hn (hforward.2.1.1 l' hl')
  exact hprefix c.links [] (by simp)

/-! ## Along the declarations -/

/-- Something that is computed of every name along the declarations, each time from the value. -/
def solve {α : Type} (f : (String → α) → Expr → α) : (String → α) → List Link → String → α
  | s, [] => s
  | s, l :: links => solve f (Function.update s l.name (f s l.value)) links

section

variable {α : Type} {f : (String → α) → Expr → α}

theorem solve_append (s : String → α) (links links' : List Link) :
    solve f s (links ++ links') = solve f (solve f s links) links' := by
  induction links generalizing s with
  | nil => rfl
  | cons l links ih => exact ih _

theorem solve_of_notMem {links : List Link} {n : String} (h : n ∉ links.map Link.name)
    (s : String → α) : solve f s links n = s n := by
  induction links generalizing s with
  | nil => rfl
  | cons l links ih =>
      rw [List.map_cons, List.mem_cons, not_or] at h
      rw [solve, ih h.2, Function.update_of_ne h.1]

/-- What is computed of a declared name is computed of its value. -/
theorem solve_link (h : c.Sound temp)
    (hf : ∀ s s' e, e.BuiltFrom (fun n => s n = s' n) → f s e = f s' e) (s : String → α)
    {l : Link} (hl : l ∈ c.links) :
    solve f s c.links l.name = f (solve f s c.links) l.value := by
  obtain ⟨pre, post, hsplit⟩ := List.append_of_mem hl
  have hnodup := h.nodup
  have hforward := h.forward
  rw [hsplit, List.map_append, List.map_cons, List.nodup_append, List.nodup_cons] at hnodup
  rw [hsplit, List.pairwise_append, List.pairwise_cons] at hforward
  have hagree : l.value.BuiltFrom fun n => solve f s pre n = solve f s c.links n := by
    refine (Expr.builtFrom_names (h.built l hl)).mpr fun n hn => ?_
    have hlater : n ∉ (l :: post).map Link.name := by
      rw [List.map_cons, List.mem_cons, not_or]
      refine ⟨fun hc => h.own l hl (hc ▸ hn), fun hc => ?_⟩
      obtain ⟨l', hl', rfl⟩ := List.mem_map.mp hc
      exact hforward.2.1.1 l' hl' hn
    rw [hsplit, solve_append, solve_of_notMem hlater]
  rw [← hf _ _ _ hagree, hsplit, solve_append, solve, solve_of_notMem hnodup.2.1.1,
    Function.update_self]

end

/-- What names expand to: a declared name to its value with all names in it expanded, any other name to
itself. -/
def expansion (links : List Link) : String → Expr := solve (fun E e => e.fill E) .name links

/-- How many replacements a name takes until no name stands in its place, or one that stays. -/
def cost (links : List Link) : String → Nat := solve (fun k e => slotCost k e + 1) (fun _ => 0) links

theorem expansion_link (h : c.Sound temp) {l : Link} (hl : l ∈ c.links) :
    expansion c.links l.name = l.value.fill (expansion c.links) :=
  solve_link (f := fun E e => e.fill E) h (fun _ _ _ he => Expr.fill_congr he fun _ hn => hn) _ hl

theorem cost_link (h : c.Sound temp) {l : Link} (hl : l ∈ c.links) :
    cost c.links l.name = slotCost (cost c.links) l.value + 1 := by
  refine solve_link h (fun s s' e he => ?_) _ hl
  cases e with
  | name n => exact congrArg (· + 1) he
  | _ => rfl

theorem not_mem_of_not_temp (h : c.Sound temp) {n : String} (hn : ¬ temp n) :
    n ∉ c.links.map Link.name := by
  intro hc
  obtain ⟨l, hl, rfl⟩ := List.mem_map.mp hc
  exact hn (h.temporary l hl)

theorem expansion_of_not_temp (h : c.Sound temp) {n : String} (hn : ¬ temp n) :
    expansion c.links n = .name n :=
  solve_of_notMem (not_mem_of_not_temp h hn) _

theorem cost_of_not_temp (h : c.Sound temp) {n : String} (hn : ¬ temp n) : cost c.links n = 0 :=
  solve_of_notMem (not_mem_of_not_temp h hn) _

/-- Expanding leaves no temporary. -/
theorem builtFrom_expansion (h : c.Sound temp) {n : String} (hn : n ∈ c.reads) :
    (expansion c.links n).BuiltFrom fun m => m ∈ c.reads ∧ ¬ temp m := by
  have hlinks := link_induction (P := fun n =>
      (expansion c.links n).BuiltFrom fun m => m ∈ c.reads ∧ ¬ temp m) h fun l hl ih => by
    rw [expansion_link h hl]
    refine Expr.builtFrom_fill ((Expr.builtFrom_names (h.built l hl)).mpr fun _ hm => hm)
      fun m hm => ?_
    by_cases htemp : temp m
    · exact ih m hm htemp
    · rw [expansion_of_not_temp h htemp]
      exact ⟨names_subset_reads hl m hm, htemp⟩
  by_cases htemp : temp n
  · obtain ⟨l, hl, rfl⟩ := List.mem_map.mp (h.closed n hn htemp)
    exact hlinks l hl
  · rw [expansion_of_not_temp h htemp]
    exact ⟨hn, htemp⟩

theorem builtFrom_fill_expansion (h : c.Sound temp) {e : Expr} (he : e.BuiltFrom fun _ => True)
    (hread : ∀ n ∈ e.names, n ∈ c.reads) :
    (e.fill (expansion c.links)).BuiltFrom fun n => ¬ temp n :=
  Expr.builtFrom_fill ((Expr.builtFrom_names he).mpr hread) fun _ hn =>
    (builtFrom_expansion h hn).mono fun _ hm => hm.2

/-- The declarations of a name for another. -/
def aliases (links : List Link) : Nat := links.countP fun l => l.value.name?.isSome

theorem cost_le (links : List Link) (n : String) : cost links n ≤ aliases links + 1 := by
  have hrun : ∀ (links : List Link) (s : String → Nat) (k : Nat), (∀ n, s n ≤ k + 1) → ∀ n,
      solve (fun k e => slotCost k e + 1) s links n ≤ k + aliases links + 1 := by
    intro links
    induction links with
    | nil => exact fun s k hs n => hs n
    | cons l links ih =>
        intro s k hs n
        have hcount : aliases (l :: links) = aliases links + if l.value.name?.isSome then 1 else 0 :=
          List.countP_cons ..
        have hnext : ∀ m, Function.update s l.name (slotCost s l.value + 1) m ≤
            (k + if l.value.name?.isSome then 1 else 0) + 1 := by
          intro m
          rw [Function.update_apply]
          split
          · cases l.value with
            | name m' =>
                have := hs m'
                simp [slotCost, Expr.name?]
                omega
            | _ => simp [slotCost]
          · have := hs m
            omega
        have := ih _ _ hnext n
        rw [solve, hcount]
        omega
  have := hrun links (fun _ => 0) 0 (fun _ => Nat.zero_le _) n
  rw [cost]
  omega

end Chain

end Devirt
