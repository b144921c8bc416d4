import Devirt.Proofs.Chains
import Devirt.Proofs.Fixpoint
import Devirt.Proofs.TemporaryRules

set_option autoImplicit false

/-! # Chains of temporaries collapse

A chain of temporaries is simplified to its assignment, with everything in it expanded
(`simplify_chain`).  The first walk expands all expressions but the declarations of a name for another,
which no hook is asked about, and drops what was never read (`walk_expandable`).  From then on
temporaries are read in such declarations only.  The last of these is read by none, so every further walk
drops one at least, and then there is nothing left to do (`rounds_expanded`). -/

namespace Devirt

open Walk Walk.Progress

namespace Chain

open Temporaries Temporaries.Context

variable {temp : String → Prop} {c : Chain} {s s' : Stmt} {options : Options}

/-! ## What the rules know of a chain -/

/-- The names that begin like a temporary. -/
def IsTemporary (options : Options) (n : String) : Prop :=
  options.tempPrefix.toList <+: n.toList

/-- The rules as they are prepared for the chain with the statement `s` at its end. -/
def context (options : Options) (c : Chain) (s : Stmt) : Context := ⟨options, (c.before s).usage⟩

theorem substitute_of_not_temp (h : c.Sound temp) (hs : c.ReadsEnd s) {n : String}
    (hn : ¬ temp n) : (c.context options s).substitute (.name n) = none := by
  by_contra hsome
  obtain ⟨e, he⟩ := Option.ne_none_iff_exists'.mp hsome
  obtain ⟨m, v, hm, hv, hvalue, -⟩ := substitute_eq_some he
  cases hm
  have hnone := value_of_not_declared h hs (not_mem_of_not_temp h hn) (temporary_eq_some.mp hv).2.1
  rw [hnone] at hvalue
  contradiction

/-- A declaration is removed if its name is never read. -/
theorem isDeadStmt_link (h : c.Sound temp) (hs : c.ReadsEnd s) {l : Link} (hl : l ∈ c.links) :
    (c.context options s).isDeadStmt l.stmt = decide (l.name ∉ c.reads) := by
  change ([l.name].all fun n => (((c.before s).usage.get? n).map (·.reads)) == some 0) = _
  rw [List.all_cons, List.all_nil, Bool.and_true, usage_link h hs hl, Option.map_some]
  rw [Bool.eq_iff_iff, beq_iff_eq, decide_eq_true_iff, Option.some.injEq, List.count_eq_zero]

/-- A name, an element of a named table under a named key, or an operation on two names. -/
inductive IsStep : Expr → Prop where
  | name (n : String) : IsStep (.name n)
  | index (t k : String) : IsStep (.index (.name t) (.name k))
  | binary (op : BinaryOp) (l r : String) : IsStep (.binary op (.name l) (.name r))

theorem builtFrom_of_isStep {e : Expr} (h : IsStep e) : e.BuiltFrom fun _ => True := by
  cases h
  · exact trivial
  · exact ⟨trivial, trivial⟩
  · exact ⟨trivial, trivial⟩

theorem exprLevels_of_isStep {e : Expr} (h : IsStep e) : exprLevels e ≤ 2 := by
  cases h <;> simp [exprLevels]

theorem inlinable_of_isStep {n : String} {v : Variable} {e : Expr} (he : IsStep e)
    (hown : n ∉ e.names) (hassigned : v.assignments = 0) (honce : e.name? = none → v.reads = 1) :
    inlinable n v e = true := by
  cases he with
  | name m =>
      simp only [Expr.names, List.mem_singleton] at hown
      simp [inlinable, hassigned, Ne.symm hown]
  | index t k =>
      simp only [Expr.names, List.mem_append, List.mem_singleton, not_or] at hown
      simp [inlinable, hassigned, honce rfl, Expr.mentions, Ne.symm hown.1, Ne.symm hown.2]
  | binary op l r =>
      simp only [Expr.names, List.mem_append, List.mem_singleton, not_or] at hown
      simp [inlinable, hassigned, honce rfl, Expr.mentions, Ne.symm hown.1, Ne.symm hown.2]

/-- The value of a temporary stands for it, if it is a name or the temporary is read once. -/
theorem substitute_link (h : c.Sound temp) (hs : c.ReadsEnd s) {l : Link} (hl : l ∈ c.links)
    (htemp : IsTemporary options l.name) (hstep : IsStep l.value)
    (honce : l.value.name? = none → c.reads.count l.name = 1) :
    (c.context options s).substitute (.name l.name) = some l.value := by
  have hentry : (c.context options s).temporary l.name =
      some ⟨c.reads.count l.name, 0, some l.id, some l.value, false⟩ :=
    temporary_eq_some.mpr ⟨htemp, usage_link h hs hl, rfl⟩
  rw [substitute, hentry]
  exact Option.filter_some_pos (inlinable_of_isStep hstep (h.own l hl) rfl honce)

/-! ## One walk -/

/-- The chain with its expressions settled. -/
def settled (E : String → Expr) (c : Chain) : Chain :=
  { c with
    links := c.links.map fun l => { l with value := l.value.settled E }
    key := c.key.fill E
    value := c.value.fill E }

/-- The chain without the declarations of names that are not among those given. -/
def keep (names : List String) (c : Chain) : Chain :=
  { c with links := c.links.filter fun l => decide (l.name ∈ names) }

theorem ready_link {Known : String → Prop} {E : String → Expr} {l : Link}
    (hl : l.value.name? = none →
      l.value.BuiltFrom Known ∧ exprLevels (l.value.fill E) ≤ maxDepth) : Ready Known E l.stmt := by
  cases hname : l.value.name? with
  | none => exact .declare l.id l.name (hl hname).1 (hl hname).2
  | some m =>
      rw [Link.stmt, Usage.eq_name_of_name? hname]
      exact .copy l.id l.name m

theorem ready_assign {Known : String → Prop} {E : String → Expr} (id : NodeId) {x : String}
    {k v : Expr} (hx : Known x) (hstays : E x = .name x) (hk : k.BuiltFrom Known)
    (hkl : exprLevels (k.fill E) < maxDepth) (hv : v.BuiltFrom Known)
    (hvl : exprLevels (v.fill E) ≤ maxDepth) :
    Ready Known E (.assign id [.index (.name x) k] [v]) := by
  refine .assign id ⟨hx, hk⟩ hv ?_ hvl
  have hpos := exprLevels_pos (k.fill E)
  rw [Expr.fill, Expr.fill, hstays, exprLevels, exprLevels]
  omega

/-- What a walk makes of the statement at the end of a chain, and of what it has made. -/
structure Last (p : Pass) (s s' : Stmt) (still : Prop) : Prop where
  first : Settles p s s' still
  again : Settles p s' s' still
  other : s.isDeclare = false
  other' : s'.isDeclare = false

theorem last_of_ready {p : Pass} {σ : String → Option Expr} {E : String → Expr}
    {k : String → Nat} {Known : String → Prop} {gone : Stmt → Bool}
    (h : Expansion p σ E k Known gone) (hs : Ready Known E s) (hother : s.isDeclare = false)
    (still : Prop) (hstill : still → s.Still σ ∧ (s.settled E).Still σ) :
    Last p s (s.settled E) still := by
  have hagain := h.settles (h.ready_settled hs)
  rw [h.stmt_settled_settled hs] at hagain
  refine ⟨fun fuel hfuel w hw => ?_, fun fuel hfuel w hw => ?_, hother, ?_⟩
  · exact (h.settles hs fuel hfuel w hw).mono fun hP => (hstill hP).1
  · exact (hagain fuel hfuel w hw).mono fun hP => (hstill hP).2
  · cases s <;> first | rfl | contradiction

/-- A declaration is settled by expanding it, the statement at the end to `s'`. -/
inductive Pairs (Known : String → Prop) (E : String → Expr) (s s' : Stmt) : Stmt → Stmt → Prop where
  | link {x : Stmt} : Ready Known E x → x.isDeclare = true → Pairs Known E s s' x (x.settled E)
  | last {x : Stmt} : x = s ∨ x = s' → Pairs Known E s s' x s'

section

variable {p : Pass} {σ : String → Option Expr} {E : String → Expr} {k : String → Nat}
  {Known : String → Prop} {gone : Stmt → Bool} {still : Prop}
  (h : Expansion p σ E k Known gone) (hready : ∀ l ∈ c.links, Ready Known E l.stmt)
  (hlast : Last p s s' still) (hgone : ∀ x : Stmt, x.isDeclare = false → gone x = false)

theorem pairs_before (hready : ∀ l ∈ c.links, Ready Known E l.stmt) :
    List.Forall₂ (Pairs Known E s s') (c.before s) ((c.settled E).before s') := by
  refine List.rel_append ?_ (.cons (.last (.inl rfl)) .nil)
  rw [settled, List.map_map, List.forall₂_map_left_iff, List.forall₂_map_right_iff,
    List.forall₂_same]
  exact fun l hl => .link (hready l hl) rfl

include h hgone

include hlast in
theorem settles_of_pairs {x x' : Stmt} (hx : Pairs Known E s s' x x') :
    Settles p x x' (if x.isDeclare then x.Still σ else still) ∧ Pairs Known E s s' x' x' ∧
      gone x' = gone x := by
  cases hx with
  | link hx hdeclare =>
      have hagain : Pairs Known E s s' (x.settled E) ((x.settled E).settled E) := by
        refine .link (h.ready_settled hx) ?_
        cases hx <;> first | rfl | contradiction
      rw [h.stmt_settled_settled hx] at hagain
      refine ⟨?_, hagain, h.gone_settled hx⟩
      rw [if_pos hdeclare]
      exact h.settles hx
  | last hx =>
      refine ⟨?_, .last (.inr rfl), ?_⟩
      · rcases hx with rfl | rfl
        · rw [hlast.other]
          exact hlast.first
        · rw [hlast.other']
          exact hlast.again
      · rcases hx with rfl | rfl
        · rw [hgone _ hlast.other, hgone _ hlast.other']
        · rfl

variable {names : List String} (hnames : ∀ l ∈ c.links, gone l.stmt = decide (l.name ∉ names))

include hready hnames

theorem filter_before (hother : s'.isDeclare = false) :
    ((c.settled E).before s').filter (fun x => !gone x) =
      ((c.settled E).keep names).before s' := by
  simp only [before, keep, settled, List.filter_append, List.filter_map]
  refine congrArg₂ (· ++ ·) (congrArg _ (congrArg _ (List.filter_congr fun l hl => ?_))) ?_
  · have hdead : gone (Stmt.settled E l.stmt) = decide (l.name ∉ names) :=
      (h.gone_settled (hready l hl)).trans (hnames l hl)
    change (!gone (Stmt.settled E l.stmt)) = decide (l.name ∈ names)
    simp [hdead]
  · simp [hgone s' hother]

include hlast in
/-- A walk settles the expressions of a chain and drops the declarations that are gone. -/
theorem walk_before :
    Reaches (p.walk (c.before s)) (((c.settled E).keep names).before s') .start
      ((∀ l ∈ c.links, l.stmt.Still σ ∧ l.name ∈ names) ∧ still) := by
  have hwalk := block_reaches h.block _ (fun _ _ => settles_of_pairs h hlast hgone)
    (pairs_before hready)
  rw [filter_before h hready hgone hnames hlast.other'] at hwalk
  refine hwalk.mono fun ⟨hlinks, hstill⟩ => List.forall_mem_append.mpr ⟨fun x hx => ?_, ?_⟩
  · obtain ⟨l, hl, rfl⟩ := List.mem_map.mp hx
    refine ⟨(hlinks l hl).1, ?_⟩
    rw [hnames l hl]
    simpa using (hlinks l hl).2
  · refine List.forall_mem_singleton.mpr ⟨?_, hgone s hlast.other⟩
    rw [hlast.other]
    exact hstill

end

/-! ## After one walk -/

theorem mem_reads {n : String} : n ∈ c.reads ↔
    (∃ l ∈ c.links, n ∈ l.value.names) ∨ n ∈ c.value.names ∨ n = c.table ∨ n ∈ c.key.names := by
  simp only [reads, List.mem_append, List.mem_flatMap, List.mem_cons]

/-- A chain stays sound if declarations are dropped, as long as their names are not read, and if
expressions come to read fewer temporaries. -/
theorem Sound.weaken {d : Chain} (h : c.Sound temp) {g : Link → Link} {q : Link → Bool}
    (hlinks : d.links = (c.links.filter q).map g) (hname : ∀ l, (g l).name = l.name)
    (hbuilt : ∀ l ∈ c.links, (g l).value.BuiltFrom fun _ => True)
    (hnames : ∀ l ∈ c.links, ∀ n ∈ (g l).value.names, temp n → n ∈ l.value.names)
    (hvalue : d.value.BuiltFrom fun n => ¬ temp n) (hkey : d.key.BuiltFrom fun n => ¬ temp n)
    (htable : d.table = c.table) (hkept : ∀ l ∈ c.links, l.name ∈ c.reads → q l = true) :
    d.Sound temp := by
  have hmem : ∀ l ∈ d.links, ∃ l' ∈ c.links, q l' = true ∧ g l' = l := by
    intro l hl
    rw [hlinks] at hl
    obtain ⟨l', hl', rfl⟩ := List.mem_map.mp hl
    exact ⟨l', (List.mem_filter.mp hl').1, (List.mem_filter.mp hl').2, rfl⟩
  have hmap : d.links.map Link.name = (c.links.filter q).map Link.name := by
    rw [hlinks, List.map_map]
    exact List.map_congr_left fun l _ => hname l
  refine ⟨?_, hvalue.mono fun _ _ => trivial, hkey.mono fun _ _ => trivial, ?_, ?_, ?_, ?_, ?_, ?_⟩
  · intro l hl
    obtain ⟨l', hl', -, rfl⟩ := hmem l hl
    exact hbuilt l' hl'
  · rw [hmap]
    exact h.nodup.sublist (List.filter_sublist.map _)
  · intro l hl
    obtain ⟨l', hl', -, rfl⟩ := hmem l hl
    rw [hname]
    exact h.temporary l' hl'
  · -- only the declarations read temporaries, and those they did before
    intro n hn htemp
    rcases mem_reads.mp hn with ⟨l, hl, hn⟩ | hn | rfl | hn
    · obtain ⟨l', hl', -, rfl⟩ := hmem l hl
      have hread := names_subset_reads hl' n (hnames l' hl' n hn htemp)
      obtain ⟨l'', hl'', rfl⟩ := List.mem_map.mp (h.closed n hread htemp)
      rw [hmap]
      exact List.mem_map_of_mem (List.mem_filter.mpr ⟨hl'', hkept l'' hl'' hread⟩)
    · exact absurd htemp ((Expr.builtFrom_names hvalue).mp hvalue n hn)
    · exact absurd htemp (htable ▸ h.table)
    · exact absurd htemp ((Expr.builtFrom_names hkey).mp hkey n hn)
  · rw [hlinks, List.pairwise_map]
    refine (h.forward.filter q).imp_of_mem fun {l l'} hl hl' hread hc => ?_
    have hl := List.mem_of_mem_filter hl
    have hl' := List.mem_of_mem_filter hl'
    rw [hname] at hc
    exact hread (hnames l hl l'.name hc (h.temporary l' hl'))
  · intro l hl hc
    obtain ⟨l', hl', -, rfl⟩ := hmem l hl
    rw [hname] at hc
    exact h.own l' hl' (hnames l' hl' l'.name hc (h.temporary l' hl'))
  · rw [htable]
    exact h.table

/-- Temporaries are read in declarations of a name for another only. -/
structure Expanded (temp : String → Prop) (c : Chain) : Prop extends c.Sound temp where
  links_final : ∀ l ∈ c.links, l.value.name? = none →
    (l.value.BuiltFrom fun n => ¬ temp n) ∧ exprLevels l.value ≤ maxDepth
  value_final : c.value.BuiltFrom fun n => ¬ temp n
  key_final : c.key.BuiltFrom fun n => ¬ temp n

/-- A chain of temporaries that one walk expands: its declarations take no more rounds and its
expressions no more levels than a walk allows. -/
structure Expandable (options : Options) (temp : String → Prop) (c : Chain) : Prop
    extends c.Sound temp where
  marked : ∀ l ∈ c.links, IsTemporary options l.name
  step : ∀ l ∈ c.links, IsStep l.value
  once : ∀ l ∈ c.links, l.value.name? = none → c.reads.count l.name ≤ 1
  aliases_lt : aliases c.links + 1 < maxRounds
  links_levels : ∀ l ∈ c.links, exprLevels (expansion c.links l.name) ≤ maxDepth

theorem other_isDeadStmt (C : Context) (x : Stmt) (h : x.isDeclare = false) :
    C.isDeadStmt x = false := by
  cases x <;> first | rfl | contradiction

section

variable (h : c.Expandable options temp) (hs : c.ReadsEnd s)

include h hs

/-- The value of a temporary that is read stands for it. -/
theorem substitute_of_mem {l : Link} (hl : l ∈ c.links) (hread : l.name ∈ c.reads) :
    (c.context options s).substitute (.name l.name) = some l.value := by
  refine substitute_link h.toSound hs hl (h.marked l hl) (h.step l hl) fun hname => ?_
  have hle := h.once l hl hname
  have hpos := List.count_pos_iff.mpr hread
  omega

theorem expansion_expandable :
    Expansion (c.context options s).pass (fun n => (c.context options s).substitute (.name n))
      (expansion c.links) (cost c.links) (· ∈ c.reads) (c.context options s).isDeadStmt := by
  have hsound := h.toSound
  refine expansion_temporaries ?_ ?_ ?_ ?_
  · intro n hn hnone
    by_cases htemp : temp n
    · obtain ⟨l, hl, rfl⟩ := List.mem_map.mp (hsound.closed n hn htemp)
      rw [substitute_of_mem h hs hl hn] at hnone
      contradiction
    · exact ⟨expansion_of_not_temp hsound htemp, cost_of_not_temp hsound htemp⟩
  · intro n e hn he
    by_cases htemp : temp n
    · obtain ⟨l, hl, rfl⟩ := List.mem_map.mp (hsound.closed n hn htemp)
      rw [substitute_of_mem h hs hl hn] at he
      cases he
      refine ⟨?_, (expansion_link hsound hl).symm, by rw [cost_link hsound hl]; omega⟩
      exact (Expr.builtFrom_names (hsound.built l hl)).mpr (names_subset_reads hl)
    · rw [substitute_of_not_temp hsound hs htemp] at he
      contradiction
  · intro n hn
    exact (builtFrom_expansion hsound hn).mono fun m hm =>
      ⟨hm.1, substitute_of_not_temp hsound hs hm.2⟩
  · intro n
    have := cost_le c.links n
    have := h.aliases_lt
    omega

/-- The first walk expands everything but the declarations of a name for another, and drops what is
never read. -/
theorem walk_expandable (hlast : Last (c.context options s).pass s s' False) :
    Reaches ((c.context options s).pass.walk (c.before s))
      (((c.settled (expansion c.links)).keep c.reads).before s') .start False := by
  have hsound := h.toSound
  refine (walk_before (expansion_expandable h hs) (fun l hl => ready_link fun _ => ⟨?_, ?_⟩) hlast
    (other_isDeadStmt _) fun l hl => isDeadStmt_link hsound hs hl).mono False.elim
  · exact (Expr.builtFrom_names (hsound.built l hl)).mpr (names_subset_reads hl)
  · rw [← expansion_link hsound hl]
    exact h.links_levels l hl

end

/-- What is left is expanded. -/
theorem expanded_of_expandable (h : c.Expandable options temp) :
    ((c.settled (expansion c.links)).keep c.reads).Expanded temp := by
  have hs := h.toSound
  have hlink : ∀ l ∈ c.links,
      (l.value.fill (expansion c.links)).BuiltFrom fun n => ¬ temp n :=
    fun l hl => builtFrom_fill_expansion hs (hs.built l hl) (names_subset_reads hl)
  have hvalue : (c.value.fill (expansion c.links)).BuiltFrom fun n => ¬ temp n :=
    builtFrom_fill_expansion hs hs.value_built fun n hn => mem_reads.mpr (.inr (.inl hn))
  have hkey : (c.key.fill (expansion c.links)).BuiltFrom fun n => ¬ temp n :=
    builtFrom_fill_expansion hs hs.key_built fun n hn => mem_reads.mpr (.inr (.inr (.inr hn)))
  have hbuilt : ∀ l ∈ c.links,
      (l.value.settled (expansion c.links)).BuiltFrom fun _ => True := by
    intro l hl
    rcases Expr.settled_eq (expansion c.links) l.value with ⟨-, heq⟩ | ⟨-, heq⟩ <;> rw [heq]
    · exact hs.built l hl
    · exact (hlink l hl).mono fun _ _ => trivial
  have hnames : ∀ l ∈ c.links, ∀ n ∈ (l.value.settled (expansion c.links)).names,
      temp n → n ∈ l.value.names := by
    intro l hl n hn htemp
    rcases Expr.settled_eq (expansion c.links) l.value with ⟨-, heq⟩ | ⟨-, heq⟩ <;> rw [heq] at hn
    · exact hn
    · exact absurd htemp ((Expr.builtFrom_names (hlink l hl)).mp (hlink l hl) n hn)
  refine ⟨?_, ?_, hvalue, hkey⟩
  · refine hs.weaken (g := fun l => { l with value := l.value.settled (expansion c.links) })
      (q := fun l => decide (l.name ∈ c.reads)) ?_ (fun _ => rfl) hbuilt hnames hvalue hkey rfl
      fun l _ hread => decide_eq_true hread
    rw [keep, settled, List.filter_map]
    rfl
  · intro l hl hv
    obtain ⟨l, hmem, rfl⟩ := List.mem_map.mp (List.mem_of_mem_filter hl)
    rcases Expr.settled_eq (expansion c.links) l.value with ⟨⟨m, hm⟩, -⟩ | ⟨-, heq⟩
    · simp only [hm] at hv
      contradiction
    · simp only [heq]
      refine ⟨hlink l hmem, ?_⟩
      rw [← expansion_link hs hmem]
      exact h.links_levels l hmem

theorem settled_name (h : c.Sound temp) : c.settled .name = c := by
  have hvalue : ∀ l ∈ c.links, l.value.settled .name = l.value := by
    intro l hl
    rcases Expr.settled_eq .name l.value with ⟨-, heq⟩ | ⟨-, heq⟩ <;> rw [heq]
    exact Expr.fill_name (h.built l hl)
  have hlinks : c.links.map (fun l => { l with value := l.value.settled .name }) = c.links := by
    refine (List.map_congr_left fun l hl => ?_).trans (List.map_id _)
    rw [hvalue l hl]
    rfl
  rw [settled, hlinks, Expr.fill_name h.key_built, Expr.fill_name h.value_built]

section

variable (h : c.Expanded temp) (hs : c.ReadsEnd s)

include h hs

theorem expansion_expanded :
    Expansion (c.context options s).pass (fun n => (c.context options s).substitute (.name n))
      .name (fun _ => 0) (fun n => ¬ temp n) (c.context options s).isDeadStmt := by
  have hstill : ∀ n, ¬ temp n → (c.context options s).substitute (.name n) = none :=
    fun n hn => substitute_of_not_temp h.toSound hs hn
  refine expansion_temporaries (fun _ _ _ => ⟨rfl, rfl⟩) (fun n e hn he => ?_)
    (fun n hn => ⟨hn, hstill n hn⟩) fun _ => by decide
  rw [hstill n hn] at he
  contradiction

/-- A later walk only drops declarations, and does nothing if all names are read. -/
theorem walk_expanded (hlast : Last (c.context options s).pass s s True) :
    Reaches ((c.context options s).pass.walk (c.before s)) ((c.keep c.reads).before s) .start
      (∀ l ∈ c.links, l.name ∈ c.reads) := by
  have hexp : Expansion (c.context options s).pass _ _ _ _ _ := expansion_expanded h hs
  have hwalk := walk_before hexp (fun l hl => ready_link fun hv => ?_) hlast (other_isDeadStmt _)
    fun l hl => isDeadStmt_link h.toSound hs hl
  · rw [settled_name h.toSound] at hwalk
    refine hwalk.mono fun hread => ⟨fun l hl => ⟨?_, hread l hl⟩, trivial⟩
    exact List.forall_mem_singleton.mpr fun hv =>
      (h.links_final l hl hv).1.mono fun _ hn => substitute_of_not_temp h.toSound hs hn
  · obtain ⟨hfinal, hlevels⟩ := h.links_final l hl hv
    exact ⟨hfinal, by rwa [Expr.fill_name hfinal]⟩

end

theorem expanded_keep (h : c.Expanded temp) : (c.keep c.reads).Expanded temp := by
  refine ⟨h.toSound.weaken (g := fun l => l) (q := fun l => decide (l.name ∈ c.reads))
    (List.map_id _).symm (fun _ => rfl) h.built (fun _ _ _ hn _ => hn) h.value_final h.key_final rfl
    (fun l _ hread => decide_eq_true hread), ?_, h.value_final, h.key_final⟩
  exact fun l hl => h.links_final l (List.mem_of_mem_filter hl)

/-- The last declaration of an expanded chain is never read. -/
theorem length_keep_lt (h : c.Expanded temp) (hne : c.links ≠ []) :
    (c.keep c.reads).links.length < c.links.length := by
  obtain ⟨init, l, hsplit⟩ := (List.eq_nil_or_concat c.links).resolve_left hne
  have hl : l ∈ c.links := by simp [hsplit]
  have hforward := h.forward
  rw [hsplit, List.concat_eq_append, List.pairwise_append] at hforward
  rw [keep, List.length_filter_lt_length_iff_exists]
  refine ⟨l, hl, ?_⟩
  rw [decide_eq_true_iff, mem_reads]
  rintro (⟨l', hl', hread⟩ | hread | hread | hread)
  · rw [hsplit, List.concat_eq_append, List.mem_append, List.mem_singleton] at hl'
    rcases hl' with hl' | rfl
    · exact hforward.2.2 l' hl' l List.mem_cons_self hread
    · exact h.own l' hl hread
  · exact (Expr.builtFrom_names h.value_final).mp h.value_final _ hread (h.temporary l hl)
  · exact h.table (hread ▸ h.temporary l hl)
  · exact (Expr.builtFrom_names h.key_final).mp h.key_final _ hread (h.temporary l hl)

/-! ## Runs -/

/-- Folding leaves a chain as it is. -/
theorem quiet_folding (h : c.Sound temp)
    (hlinks : ∀ l ∈ c.links, l.value.name? = none → exprLevels l.value ≤ maxDepth)
    (hlast : Last Folding.pass s s True) :
    Quiet .start (Folding.pass.walk (c.before s)).2 := by
  have hkept : ∀ l ∈ c.links, false = decide (l.name ∉ c.links.map Link.name) := by
    intro l hl
    simpa using List.mem_map_of_mem hl
  have hwalk := walk_before expansion_folding
    (fun l hl => ready_link fun hv => ⟨h.built l hl, ?_⟩) hlast (fun _ _ => rfl) hkept
  · have hstart := hwalk.quiet ⟨fun l hl => ⟨?_, List.mem_map_of_mem hl⟩, trivial⟩
    · rw [hstart]
      exact ⟨rfl, rfl⟩
    · exact List.forall_mem_singleton.mpr fun _ => (h.built l hl).mono fun _ _ => rfl
  · rw [Expr.fill_name (h.built l hl)]
    exact hlinks l hl hv

/-- The stages of the standard pipeline without a mapping. -/
abbrev stages (options : Options) : List Stage := (Pipeline.standard options none).stages

/-- A round of a block that folding leaves as it is walks the temporaries once. -/
theorem round_eq {b b' : Block} (hfold : Quiet .start (Folding.pass.walk b).2) {P : Prop}
    (hwalk : Reaches ((Context.mk options b.usage).pass.walk b) b' .start P) :
    ∃ n, Pipeline.round (stages options) b 0 = (b', n, false) ∧ (P → n = 0) ∧
      (n = 0 → b = b') := by
  refine ⟨((Context.mk options b.usage).pass.walk b).2.replacements, ?_, fun hP => ?_,
    fun hzero => ?_⟩
  · change Pipeline.round [Folding.stage, Temporaries.stage options] b 0 = _
    have hfoldwalk : (Folding.stage.prepare b).walk b = Folding.pass.walk b := rfl
    have htempwalk : ((Temporaries.stage options).prepare b).walk b =
        (Context.mk options b.usage).pass.walk b := rfl
    rw [Pipeline.round, hfoldwalk]
    simp only
    rw [if_neg (by simp [hfold.halted]), (Pass.walk_of_quiet hfold).1, hfold.replacements,
      Pipeline.round, htempwalk]
    simp only
    rw [if_neg (by simp [hwalk.going]), Pipeline.round, hwalk.result]
    simp [Progress.start]
  · rw [hwalk.quiet hP]
    rfl
  · rw [← hwalk.result]
    exact (Pass.walk_of_quiet ⟨hzero, hwalk.going⟩).1.symm

/-- The run has converged at a block, within so many rounds. -/
structure Ends (r : Block × RunReport) (b : Block) (rounds : Nat) : Prop where
  block : r.1 = b
  converged : r.2.converged = true
  iterations : r.2.iterations ≤ rounds

/-- No walk over an expanded chain changes the statement at its end. -/
structure Stays (options : Options) (temp : String → Prop) (s : Stmt) : Prop where
  folding : Last Folding.pass s s True
  temporaries : ∀ d : Chain, d.Expanded temp → d.ReadsEnd s →
    Last (d.context options s).pass s s True

/-- An expanded chain loses a declaration in every round until there are none. -/
theorem rounds_expanded (h : c.Expanded temp) (hs : c.ReadsEnd s) (hstays : Stays options temp s)
    {limit : Nat} (hlimit : c.links.length < limit) (report : RunReport) :
    Ends (Pipeline.rounds (stages options) limit (c.before s) report) [s]
      (report.iterations + c.links.length + 1) := by
  -- on the number of declarations
  induction hk : c.links.length using Nat.strongRecOn generalizing c limit report with
  | ind k ih =>
      obtain ⟨limit, rfl⟩ : ∃ m, limit = m + 1 := ⟨limit - 1, by omega⟩
      have hfold := quiet_folding h.toSound (fun l hl hv => (h.links_final l hl hv).2)
        hstays.folding
      obtain ⟨n, hround, hquiet, hsame⟩ :=
        round_eq hfold (walk_expanded h hs (hstays.temporaries c h hs))
      by_cases hnil : c.links = []
      · have hzero : n = 0 := hquiet (by simp [hnil])
        have hkeep : (c.keep c.reads).before s = [s] := by
          simp [keep, before, hnil]
        rw [Pipeline.rounds_succ hround, hzero]
        exact ⟨hkeep, rfl, by simp only [Bool.false_or, beq_self_eq_true, ↓reduceIte]; omega⟩
      · have hlt := length_keep_lt h hnil
        by_cases hzero : n = 0
        · rw [hsame hzero]
          have hend := ih _ (by omega) (expanded_keep h) hs (by omega : _ < limit + 1) report rfl
          exact ⟨hend.block, hend.converged, hend.iterations.trans (by omega)⟩
        · rw [Pipeline.rounds_succ hround, if_neg (by simp [hzero])]
          have hend := ih _ (by omega) (expanded_keep h) hs (by omega : _ < limit)
            ⟨report.iterations + 1, report.replacements + n, !false && n == 0⟩ rfl
          refine ⟨hend.block, hend.converged, hend.iterations.trans ?_⟩
          simp only
          omega

theorem exprLevels_le_fill {P : String → Prop} {E : String → Expr} {e : Expr} (he : e.BuiltFrom P) :
    exprLevels e ≤ exprLevels (e.fill E) := by
  induction he using Expr.BuiltFrom.rec_fork with
  | name n hn => exact exprLevels_pos (E n)
  | fork f l r _ _ ihl ihr =>
      rw [Expr.fill_fork, exprLevels_fork, exprLevels_fork]
      omega

/-- Expanding takes the first round, dropping the declarations at most one round for each, and finding
nothing left to do another one. -/
theorem rounds_expandable (h : c.Expandable options temp) (hs : c.ReadsEnd s)
    (hs' : (c.settled (expansion c.links)).ReadsEnd s') (hfolding : Last Folding.pass s s True)
    (hlast : Last (c.context options s).pass s s' False) (hstays : Stays options temp s')
    {limit : Nat} (hlimit : c.links.length + 2 ≤ limit) (report : RunReport) :
    Ends (Pipeline.rounds (stages options) limit (c.before s) report) [s']
      (report.iterations + c.links.length + 2) := by
  obtain ⟨limit, rfl⟩ : ∃ m, limit = m + 1 := ⟨limit - 1, by omega⟩
  have hlevels : ∀ l ∈ c.links, l.value.name? = none → exprLevels l.value ≤ maxDepth :=
    fun l hl _ => (exprLevels_of_isStep (h.step l hl)).trans (by decide)
  have hfold := quiet_folding h.toSound hlevels hfolding
  obtain ⟨n, hround, -, hsame⟩ := round_eq hfold (walk_expandable h hs hlast)
  have hle : ((c.settled (expansion c.links)).keep c.reads).links.length ≤ c.links.length := by
    refine (List.length_filter_le ..).trans ?_
    rw [settled, List.length_map]
  have hexp := expanded_of_expandable h
  by_cases hzero : n = 0
  · rw [hsame hzero]
    have hend := rounds_expanded hexp hs' hstays (by omega : _ < limit + 1) report
    exact ⟨hend.block, hend.converged, hend.iterations.trans (by omega)⟩
  · rw [Pipeline.rounds_succ hround, if_neg (by simp [hzero])]
    have hend := rounds_expanded hexp hs' hstays (by omega : _ < limit)
      ⟨report.iterations + 1, report.replacements + n, !false && n == 0⟩
    refine ⟨hend.block, hend.converged, hend.iterations.trans ?_⟩
    simp only
    omega

/-! ### Chains with their own assignment -/

theorem settled_ending {E : String → Expr} (hstays : E c.table = .name c.table) :
    c.ending.settled E = (c.settled E).ending := by
  rw [ending, Stmt.settled, List.map_singleton, List.map_singleton, Expr.fill, Expr.fill, hstays]
  rfl

/-- An assignment without temporaries is not changed. -/
theorem stays_ending (htable : ¬ temp c.table) (hkey : c.key.BuiltFrom fun n => ¬ temp n)
    (hkeyl : exprLevels c.key < maxDepth) (hvalue : c.value.BuiltFrom fun n => ¬ temp n)
    (hvaluel : exprLevels c.value ≤ maxDepth) : Stays options temp c.ending := by
  have hready : ∀ {Known : String → Prop}, (∀ n, ¬ temp n → Known n) →
      Ready Known .name c.ending := by
    intro Known hknown
    refine ready_assign c.id (hknown _ htable) rfl (hkey.mono hknown) ?_ (hvalue.mono hknown) ?_
    · rwa [Expr.fill_name hkey]
    · rwa [Expr.fill_name hvalue]
  have hsame : c.ending.settled .name = c.ending := by
    rw [settled_ending rfl, ending, settled, Expr.fill_name hkey, Expr.fill_name hvalue]
    rfl
  have hstill : ∀ {σ : String → Option Expr}, (∀ n, ¬ temp n → σ n = none) →
      c.ending.Still σ := by
    intro σ hσ
    refine List.forall_mem_cons.mpr ⟨⟨hσ _ htable, hkey.mono hσ⟩, ?_⟩
    exact List.forall_mem_singleton.mpr (hvalue.mono hσ)
  constructor
  · have hlast := last_of_ready expansion_folding (hready fun _ _ => trivial) rfl
      True fun _ => ⟨hstill fun _ _ => rfl, by rw [hsame]; exact hstill fun _ _ => rfl⟩
    rwa [hsame] at hlast
  · intro d hd hs
    have hnone : ∀ n, ¬ temp n → (d.context options c.ending).substitute (.name n) = none :=
      fun n hn => substitute_of_not_temp hd.toSound hs hn
    have hlast := last_of_ready (expansion_expanded hd hs) (hready fun _ hn => hn) rfl
      True fun _ => ⟨hstill hnone, by rw [hsame]; exact hstill hnone⟩
    rwa [hsame] at hlast

/-- The first walk expands the assignment, and no later one changes it. -/
theorem rounds_block (h : c.Expandable options temp)
    (hkeyl : exprLevels (c.key.fill (expansion c.links)) < maxDepth)
    (hvaluel : exprLevels (c.value.fill (expansion c.links)) ≤ maxDepth) {limit : Nat}
    (hlimit : c.links.length + 2 ≤ limit) (report : RunReport) :
    Ends (Pipeline.rounds (stages options) limit c.block report)
      [.assign c.id [.index (.name c.table) (c.key.fill (expansion c.links))]
        [c.value.fill (expansion c.links)]]
      (report.iterations + c.links.length + 2) := by
  have hsound := h.toSound
  have hs := readsEnd_ending hsound.value_built hsound.key_built
  have hfinal := expanded_of_expandable h
  have hstays := expansion_of_not_temp hsound hsound.table
  have hread : ∀ n, (n ∈ c.value.names ∨ n = c.table ∨ n ∈ c.key.names) → n ∈ c.reads :=
    fun n hn => mem_reads.mpr (.inr hn)
  have hready : Ready (· ∈ c.reads) (expansion c.links) c.ending := by
    refine ready_assign c.id (hread _ (.inr (.inl rfl))) hstays ?_ hkeyl ?_ hvaluel
    · exact (Expr.builtFrom_names hsound.key_built).mpr fun n hn => hread n (.inr (.inr hn))
    · exact (Expr.builtFrom_names hsound.value_built).mpr fun n hn => hread n (.inl hn)
  have hfolding : Stays options (fun _ => False) c.ending :=
    stays_ending not_false (hsound.key_built.mono fun _ _ => not_false)
      ((exprLevels_le_fill hsound.key_built).trans_lt hkeyl)
      (hsound.value_built.mono fun _ _ => not_false)
      ((exprLevels_le_fill hsound.value_built).trans hvaluel)
  have hlast := last_of_ready (expansion_expandable h hs) hready rfl False False.elim
  rw [settled_ending hstays] at hlast
  exact rounds_expandable h hs (readsEnd_ending hfinal.value_final hfinal.key_final) hfolding.folding hlast
    (stays_ending (c := c.settled (expansion c.links)) hsound.table hfinal.key_final hkeyl
      hfinal.value_final hvaluel) hlimit report

end Chain

open Chain

instance (options : Options) : DecidablePred (IsTemporary options) :=
  fun _ => inferInstanceAs (Decidable (_ <+: _))

/-- Declarations of temporaries, each a step from names to a name, and names `x`, `a` and `b` for the
assignment `x[a] = b` behind them. -/
structure Collapsible (options : Options) (links : List Link) (x a b : String) : Prop where
  nodup : (links.map Link.name).Nodup
  temporary : ∀ l ∈ links, IsTemporary options l.name
  step : ∀ l ∈ links, IsStep l.value
  earlier : ∀ i (hi : i < links.length), ∀ n ∈ links[i].value.names, IsTemporary options n →
    n ∈ (links.take i).map Link.name
  /-- What is not a name may be read once in the whole block. -/
  once : ∀ l ∈ links, l.value.name? = none →
    (links.flatMap (fun l => l.value.names) ++ [b, x, a]).count l.name ≤ 1
  table : ¬ IsTemporary options x
  ends : ∀ n ∈ [a, b], IsTemporary options n → n ∈ links.map Link.name
  /-- A slot may be replaced once for each name that stands for a name, and once more. -/
  aliases_lt : aliases links + 1 < maxRounds
  levels_lt : ∀ l ∈ links, exprLevels (expansion links l.name) < maxDepth

/-- Declarations of temporaries, each a step from names that no later one declares, make a chain that
one walk expands, whatever names stand in the statement behind them. -/
theorem Chain.expandable_of_earlier {options : Options} {temp : String → Prop} {links : List Link}
    {x a b : String} (id : NodeId) (hnodup : (links.map Link.name).Nodup)
    (htemp : ∀ l ∈ links, temp l.name) (hmarked : ∀ l ∈ links, IsTemporary options l.name)
    (hstep : ∀ l ∈ links, IsStep l.value)
    (hearlier : ∀ i (hi : i < links.length), ∀ n ∈ links[i].value.names, temp n →
      n ∈ (links.take i).map Link.name)
    (honce : ∀ l ∈ links, l.value.name? = none →
      (links.flatMap (fun l => l.value.names) ++ [b, x, a]).count l.name ≤ 1)
    (htable : ¬ temp x) (hends : ∀ n ∈ [a, b], temp n → n ∈ links.map Link.name)
    (haliases : aliases links + 1 < maxRounds)
    (hlevels : ∀ l ∈ links, exprLevels (expansion links l.name) ≤ maxDepth) :
    (Chain.mk links id x (.name a) (.name b)).Expandable options temp := by
  -- a name that is declared here or later is not read here
  have hlater : ∀ i j (hi : i < links.length) (hj : j < links.length), i ≤ j →
      links[j].name ∉ links[i].value.names := by
    intro i j hi hj hij hread
    have hmem := hearlier i hi _ hread (htemp _ (List.getElem_mem hj))
    obtain ⟨l, hl, hname⟩ := List.mem_map.mp hmem
    obtain ⟨k, hk, rfl⟩ := List.mem_take_iff_getElem.mp hl
    have hlink := List.inj_on_of_nodup_map hnodup (List.getElem_mem _) (List.getElem_mem hj) hname
    have hsame : k = j := (List.Nodup.of_map _ hnodup).getElem_inj_iff.mp hlink
    omega
  refine ⟨⟨fun l hl => builtFrom_of_isStep (hstep l hl), trivial, trivial, hnodup, htemp,
    ?_, ?_, ?_, htable⟩, hmarked, hstep, honce, haliases, hlevels⟩
  · intro n hn hntemp
    rcases List.mem_append.mp hn with hn | hn
    · obtain ⟨l, hl, hn⟩ := List.mem_flatMap.mp hn
      obtain ⟨i, hi, rfl⟩ := List.mem_iff_getElem.mp hl
      have hmem := hearlier i hi n hn hntemp
      rw [List.map_take] at hmem
      exact List.mem_of_mem_take hmem
    · have hne : n ≠ x := fun hc => htable (hc ▸ hntemp)
      exact hends n (by simp [Expr.names] at hn ⊢; tauto) hntemp
  · exact List.pairwise_iff_getElem.mpr fun i j hi hj hij => hlater i j hi hj hij.le
  · intro l hl
    obtain ⟨i, hi, rfl⟩ := List.mem_iff_getElem.mp hl
    exact hlater i i hi hi le_rfl

section

variable {options : Options} {links : List Link} {x a b : String}
  (h : Collapsible options links x a b)

include h

theorem Collapsible.expandable (id : NodeId) :
    (Chain.mk links id x (.name a) (.name b)).Expandable options (IsTemporary options) :=
  expandable_of_earlier id h.nodup h.temporary h.temporary h.step h.earlier h.once h.table h.ends
    h.aliases_lt fun l hl => (h.levels_lt l hl).le

theorem Collapsible.levels {n : String} (hn : n ∈ [a, b]) :
    exprLevels (expansion links n) < maxDepth := by
  by_cases htemp : IsTemporary options n
  · obtain ⟨l, hl, rfl⟩ := List.mem_map.mp (h.ends n hn htemp)
    exact h.levels_lt l hl
  · have hfree : n ∉ links.map Link.name := by
      intro hc
      obtain ⟨l, hl, rfl⟩ := List.mem_map.mp hc
      exact htemp (h.temporary l hl)
    rw [expansion, solve_of_notMem hfree]
    exact (by decide : 1 < maxDepth)

end

/-- Chains of temporaries collapse completely.  Each `local t = e` takes a name, an element of a named
table under a named key, or an operation on two names; the temporaries in it are declared before, and
what is not a name is read at most once.  Whatever the shape of their dependencies, of the declarations
and an assignment `x[a] = b` one assignment is left, to what `a` and `b` expand to (`expansion_link`,
`expansion_of_not_temp`), and the run has converged two rounds after as many as there are declarations.
The limits of the walk itself are the only ones: fewer than 255 declarations of a name for a name, and
less than 512 levels of an expanded name. -/
theorem simplify_chain {options : Options} {links : List Link} {x a b : String}
    (h : Collapsible options links x a b) (id : NodeId)
    (hlimit : links.length + 2 ≤ options.maxIterations) :
    let r := (Chain.mk links id x (.name a) (.name b)).block.simplify options none
    r.1 = [.assign id [.index (.name x) (expansion links a)] [expansion links b]] ∧
      r.2.converged = true ∧ r.2.iterations ≤ links.length + 2 := by
  have hend := rounds_block (h.expandable id) (h.levels (by simp)) (h.levels (by simp)).le hlimit
    ⟨0, 0, false⟩
  exact ⟨hend.block, hend.converged, hend.iterations.trans (by simp)⟩

/-- `_3` is a name for a name, read twice; `_5` is never read. -/
def branching : List Link :=
  [⟨1, "_1", .name "inst"⟩, ⟨2, "_2", .index (.name "_1") (.name "OP_A")⟩, ⟨3, "_3", .name "_2"⟩,
   ⟨4, "_4", .index (.name "stk") (.name "_3")⟩, ⟨5, "_5", .binary .add (.name "_3") (.name "y")⟩]

/-- `x[_3] = _4` becomes `x[inst[OP_A]] = stk[inst[OP_A]]`. -/
theorem simplify_chain_branching :
    let operand : Expr := .index (.name "inst") (.name "OP_A")
    let r := (Chain.mk branching 6 "x" (.name "_3") (.name "_4")).block.simplify .standard none
    r.1 = [.assign 6 [.index (.name "x") operand] [.index (.name "stk") operand]] ∧
      r.2.converged = true ∧ r.2.iterations ≤ 7 := by
  have h : Collapsible .standard branching "x" "_3" "_4" := by
    refine ⟨by decide, by decide, ?_, by decide, ?_, by decide, by decide, by decide, by decide⟩
    · simp only [branching, List.forall_mem_cons]
      exact ⟨.name _, .index _ _, .name _, .index _ _, .binary _ _ _, by simp⟩
    · simp only [branching, List.forall_mem_cons]
      exact ⟨by decide, by decide, by decide, by decide, by decide, by simp⟩
  exact simplify_chain h 6 (by decide)

end Devirt
