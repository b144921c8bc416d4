import Devirt.Proofs.BindingOrder
import Devirt.Proofs.Prices
import Mathlib.Order.FixedPoints

set_option autoImplicit false

/-! # Calls that are kept

A declaration is dead when its names are not read, whatever its values call.  So a call is lost with
the declaration that holds it, unless a copy of it has been inlined before.  That is so wherever the
declaration binds a name that is *live*: one that is read by something that is not idle in turn.  No
walk makes calls fewer outside of the statements that are idle (`Sustains.exists_walk`), and so calls
are not lost where no idle statement holds one (`calls_le_simplify`).

Within a walk the copies are paid for by prices, which count at its two ends alike. -/

namespace Devirt

open Usage Temporaries

/-- The statement does nothing but bind names that are not live, and goes once they are not read: a
declaration, or an assignment to temporaries. -/
def Stmt.isIdle (options : Options) (live : String → Bool) : Stmt → Bool
  | declare _ names _ => names.all fun n => !live n
  | assign _ targets _ => !targets.isEmpty && targets.all fun t =>
    t.name?.any fun n => isTemporary options n && !live n
  | _ => false

/-- Every live name is read by something that is not idle. -/
def Sustains (options : Options) (live : String → Bool) (b : Block) : Prop :=
  ∀ n, live n = true → n ∈ namesRead (itemsUses (Stmt.isIdle options live) b.items)

section

variable {options : Options} {live live' : String → Bool} {b : Block}

/-! ## Idle statements -/

theorem isIdle_mono (h : ∀ n, live' n = true → live n = true) {s : Stmt}
    (hs : s.isIdle options live = true) : s.isIdle options live' = true := by
  have hname : ∀ n, live n = false → live' n = false := fun n hn => by
    by_contra hc
    rw [h n (by simpa using hc)] at hn
    contradiction
  cases s with
  | declare id names values =>
      simp only [Stmt.isIdle, List.all_eq_true, Bool.not_eq_true'] at hs ⊢
      exact fun n hn => hname n (hs n hn)
  | assign id targets values =>
      simp only [Stmt.isIdle, Bool.and_eq_true, List.all_eq_true, Option.any_eq_true,
        Bool.not_eq_true'] at hs ⊢
      refine ⟨hs.1, fun t ht => ?_⟩
      obtain ⟨n, hn, htemp, hlive⟩ := hs.2 t ht
      exact ⟨n, hn, htemp, hname n hlive⟩
  | _ => contradiction

/-- A statement that is idle only for fewer live names has a name that is live only for more. -/
theorem exists_name_of_isIdle {s : Stmt} (hs : s.isIdle options live = false)
    (hs' : s.isIdle options live' = true) : ∃ n ∈ s.names, live n = true ∧ live' n = false := by
  cases s with
  | declare id names values =>
      simp only [Stmt.isIdle, List.all_eq_true, Bool.not_eq_true'] at hs'
      simp only [Stmt.isIdle, List.all_eq_false, Bool.not_eq_true', Bool.not_eq_false] at hs
      obtain ⟨n, hn, hlive⟩ := hs
      exact ⟨n, hn, hlive, hs' n hn⟩
  | assign id targets values =>
      simp only [Stmt.isIdle, Bool.and_eq_true, List.all_eq_true, Option.any_eq_true,
        Bool.not_eq_true'] at hs'
      obtain ⟨hne, hall⟩ := hs'
      by_contra hnone
      have hidle : (Stmt.assign id targets values).isIdle options live = true := by
        simp only [Stmt.isIdle, Bool.and_eq_true, List.all_eq_true, Option.any_eq_true,
          Bool.not_eq_true']
        refine ⟨hne, fun t ht => ?_⟩
        obtain ⟨n, hn, htemp, hlive'⟩ := hall t ht
        refine ⟨n, hn, htemp, ?_⟩
        by_contra hlive
        exact hnone ⟨n, List.mem_filterMap.mpr ⟨t, ht, hn⟩, by simpa using hlive, hlive'⟩
      rw [hidle] at hs
      contradiction
  | _ => contradiction

theorem isIdle_revised {p : Pass} (hp : ∀ e e', p.onExpr e = some e' → e'.name? = none) {s s' : Stmt}
    (h : Revised p s s') : s'.isIdle options live = s.isIdle options live := by
  cases h with
  | declare _ | values _ | hook _ => rfl
  | @targets id targets targets' values h =>
      have hall : ∀ {f : Option String → Bool} {es es' : List Expr}, ListStep (ExprStep p) es es' →
          (es'.all fun t => f t.name?) = es.all fun t => f t.name? := by
        intro f es es' h
        induction h with
        | head h =>
            obtain ⟨hnone, hnone'⟩ := h.name?_eq_none hp
            rw [List.all_cons, List.all_cons, hnone, hnone']
        | tail _ ih => rw [List.all_cons, List.all_cons, ih]
      have hempty : targets'.isEmpty = targets.isEmpty := by
        cases h <;> rfl
      rw [Stmt.isIdle, Stmt.isIdle, hempty,
        hall (f := fun n? => n?.any fun n => isTemporary options n && !live n) h]

/-- An assignment and the declaration that it becomes are idle alike. -/
theorem isIdle_promoted {c : Context} (hc : c.options = options) {id : NodeId}
    {targets values : List Expr} (hne : targets ≠ [])
    (h : ∀ t ∈ targets, c.declaredBy id t = true) :
    (Stmt.declare id (targets.filterMap Expr.name?) values).isIdle options live =
      (Stmt.assign id targets values).isIdle options live := by
  have hempty : targets.isEmpty = false := by simpa using hne
  rw [Stmt.isIdle, Stmt.isIdle, hempty, Bool.not_false, Bool.true_and]
  clear hne hempty
  induction targets with
  | nil => rfl
  | cons t targets ih =>
      obtain ⟨ht, htargets⟩ := List.forall_mem_cons.mp h
      obtain ⟨n, v, rfl, hv, -⟩ := Context.declaredBy_eq_true ht
      have htemp := Context.isTemporary_of_temporary hv
      rw [hc] at htemp
      rw [List.filterMap_cons, List.all_cons, ← ih htargets]
      simp [Expr.name?, htemp]

/-- Of the live names those can be kept, in the greatest number, that are read by something that is not
idle or may not be given up. -/
theorem exists_live (options : Options) (live : String → Bool) (S : String → Prop)
    (xs : List Item) : ∃ live' : String → Bool, ∀ n, live' n = true ↔
      live n = true ∧ (S n → n ∈ namesRead (itemsUses (Stmt.isIdle options live') xs)) := by
  classical
  let f : Set String →o Set String :=
    { toFun := fun X => {n | live n = true ∧
        (S n → n ∈ namesRead (itemsUses (Stmt.isIdle options fun m => decide (m ∈ X)) xs))}
      monotone' := by
        intro X Y hXY n hn
        refine ⟨hn.1, fun hS => ?_⟩
        have hsub : (itemsUses (Stmt.isIdle options fun m => decide (m ∈ X)) xs).Sublist
            (itemsUses (Stmt.isIdle options fun m => decide (m ∈ Y)) xs) :=
          itemsUses_sublist fun _ _ => isIdle_mono fun m hm => by
            simpa using hXY (by simpa using hm)
        exact (hsub.filterMap Use.read?).subset (hn.2 hS) }
  refine ⟨fun n => decide (n ∈ f.gfp), fun n => ?_⟩
  rw [decide_eq_true_iff]
  conv_lhs => rw [← f.map_gfp]
  rfl

/-! ## One walk -/

/-- What is inlined in a walk over `b`. -/
def Replaces (options : Options) (b : Block) (n : String) : Prop :=
  ∃ v, (Context.mk options b.usage).substitute (.name n) = some v

variable {call : Nat} {read ω : String → Nat}

section

/- `live'` is what stays live of `live` in a walk over `b`. -/
variable (hsep : Separate options live b.items) (hlive : Sustains options live b)
  (hmono : ∀ n, live' n = true → live n = true)
  (hgiven : ∀ n, live n = true → live' n = false → Replaces options b n)
  (hω : Pays (Context.mk options b.usage) (fun n => live n = true ∧ live' n = false) call read ω)

include hsep hlive hmono hgiven hω

/-- Where names are no longer live, their statements are paid for by the reads of these names. -/
theorem weigh_given_up :
    weigh (price call read 0) (itemsUses (Stmt.isIdle options live) b.items) ≤
      weigh (price call (read + ω) 0) (itemsUses (Stmt.isIdle options live') b.items) := by
  -- a statement costs as much as the name that it binds
  have hreveal : weigh (price call (read + ω) 0) (itemsUses (Stmt.isIdle options live) b.items) ≤
      weigh (price call (read + ω) ω) (itemsUses (Stmt.isIdle options live') b.items) := by
    have hsame : ∀ us, weigh (price call (read + ω) 0) us ≤ weigh (price call (read + ω) ω) us :=
      weigh_le fun u => by cases u <;> simp [price]
    refine reveal_items (R := fun us vs => weigh (price call (read + ω) 0) us ≤
      weigh (price call (read + ω) ω) vs) (fun us _ => hsame us) ?_ _ ?_ (fun _ _ _ => hsame _)
      fun q _ => isIdle_mono hmono
    · intro us vs us' vs' h h'
      rw [weigh_append, weigh_append]
      exact Nat.add_le_add h h'
    · intro q hq hnot hidle
      obtain ⟨n, hn, hlive, hlive'⟩ := exists_name_of_isIdle hnot hidle
      obtain ⟨v, hv⟩ := hgiven n hlive hlive'
      obtain ⟨-, s, -, -, hnames, hunique⟩ := hsep.binder hlive hv
      obtain rfl := hunique q hq hn
      rw [weigh_append, weigh_bound, weigh_bound, hnames,
        itemsUses_of_binders (Context.flat_of_substitute hv), ← hω.inlined n v hv ⟨hlive, hlive'⟩]
      simp
  have hpaid : ((namesBound (itemsUses (Stmt.isIdle options live') b.items)).map ω).sum ≤
      ((namesRead (itemsUses (Stmt.isIdle options live) b.items)).map ω).sum := by
    refine sum_le_of_count fun n hn => ?_
    obtain ⟨⟨hn, -⟩, v, hv⟩ := hω.only n hn
    have hsub := (itemsUses_sublist_allUses (Stmt.isIdle options live') b.items).filterMap Use.bound?
    have hone := (hsub.count_le n).trans (hsep.binder hn hv).1
    exact hone.trans (List.count_pos_iff.mpr (hlive n hn))
  have hbinds : weigh (price call (read + ω) ω) (itemsUses (Stmt.isIdle options live') b.items)
      = _ := weigh_binds _
  rw [weigh_reads, hbinds] at hreveal
  omega

end

/-- The copies that a walk makes are worth what they stand for. -/
theorem weigh_walk (hlive : Sustains options live b)
    (hmono : ∀ n, live' n = true → live n = true) {Q : String → Prop}
    (hω : Pays (Context.mk options b.usage) Q call read ω)
    (hread : ∀ n, Replaces options b n → read n = 0) :
    weigh (price call (read + ω) 0) (itemsUses (Stmt.isIdle options live') b.items) ≤
      weigh (price call (read + ω) 0) (itemsUses (Stmt.isIdle options live')
        ((Context.mk options b.usage).pass.walk b).1.items) := by
  have hfollows : Follows (Context.mk options b.usage).pass fun xs ys =>
      weigh (price call (read + ω) 0) (itemsUses (Stmt.isIdle options live') xs) ≤
        weigh (price call (read + ω) 0) (itemsUses (Stmt.isIdle options live') ys) := by
    refine Context.follows (congruent_weigh (r := (· ≤ ·)) (fun _ => le_rfl) Nat.add_le_add
      fun s s' => isIdle_revised (Temporaries.tidy (balanced_true options b.items)).name) ?_ ?_ ?_
    · intro n v hv
      rw [itemsUses_of_binders (Context.flat_of_substitute hv)]
      change read n + ω n ≤ _
      rw [hread n ⟨v, hv⟩, Nat.zero_add]
      by_cases hn : ω n = 0
      · rw [hn]
        exact Nat.zero_le _
      · exact (hω.inlined n v hv (hω.only n hn).1).le
    · intro id targets values hne hall
      rw [weigh_bind, weigh_bind, sum_map_zero, sum_map_zero, isIdle_promoted rfl hne hall]
    · intro s hdead
      cases s with
      | declare id names values =>
          have hidle : (Stmt.declare id names values).isIdle options live' = true := by
            rw [Stmt.isIdle, List.all_eq_true]
            intro n hn
            obtain ⟨v, hget, hzero⟩ := Context.isDead_eq_true hdead hn
            obtain rfl := eq_track_of_get? hget
            rw [← count_namesRead, List.count_eq_zero] at hzero
            by_contra hc
            have hmem := hlive n (hmono n (by simpa using hc))
            exact hzero (((itemsUses_sublist_allUses _ _).filterMap Use.read?).subset hmem)
          rw [stmtItems, weigh_bind, sum_map_zero, if_pos hidle]
          exact Nat.zero_le _
      | _ => contradiction
  exact hfollows.walk le_trans b

/-- No walk makes calls fewer, but for those that stand in idle statements. -/
theorem Sustains.exists_walk (hsep : Separate options live b.items) (hlive : Sustains options live b) :
    ∃ live', (∀ n, live' n = true → live n = true) ∧
      Sustains options live' ((Context.mk options b.usage).pass.walk b).1 ∧
      ∀ call, weigh (price call 0 0) (itemsUses (Stmt.isIdle options live) b.items) ≤
        weigh (price call 0 0) (itemsUses (Stmt.isIdle options live')
          ((Context.mk options b.usage).pass.walk b).1.items) := by
  obtain ⟨live', hlive'⟩ := exists_live options live (Replaces options b)
    ((Context.mk options b.usage).pass.walk b).1.items
  have hmono : ∀ n, live' n = true → live n = true := fun n hn => ((hlive' n).mp hn).1
  have hgiven : ∀ n, live n = true → live' n = false → Replaces options b n ∧
      n ∉ namesRead (itemsUses (Stmt.isIdle options live')
        ((Context.mk options b.usage).pass.walk b).1.items) := by
    intro n hn hn'
    have hnot : ¬ (Replaces options b n → n ∈ namesRead (itemsUses (Stmt.isIdle options live')
        ((Context.mk options b.usage).pass.walk b).1.items)) := by
      intro h
      rw [(hlive' n).mpr ⟨hn, h⟩] at hn'
      contradiction
    exact Classical.not_imp.mp hnot
  have hweigh : ∀ call read, (∀ n, Replaces options b n → read n = 0) →
      weigh (price call read 0) (itemsUses (Stmt.isIdle options live) b.items) ≤
        weigh (price call read 0) (itemsUses (Stmt.isIdle options live')
          ((Context.mk options b.usage).pass.walk b).1.items) := by
    intro call read hread
    obtain ⟨ω, hω⟩ := exists_price options b (fun n => live n = true ∧ live' n = false) call read
    have hend : ((namesRead (itemsUses (Stmt.isIdle options live')
        ((Context.mk options b.usage).pass.walk b).1.items)).map ω).sum = 0 := by
      refine List.sum_eq_zero fun w hw => ?_
      obtain ⟨n, hn, rfl⟩ := List.mem_map.mp hw
      by_contra hne
      obtain ⟨⟨hlive, hlive'⟩, -⟩ := hω.only n hne
      exact (hgiven n hlive hlive').2 hn
    calc weigh (price call read 0) (itemsUses (Stmt.isIdle options live) b.items)
        ≤ weigh (price call (read + ω) 0) (itemsUses (Stmt.isIdle options live') b.items) :=
          weigh_given_up hsep hlive hmono (fun n hn hn' => (hgiven n hn hn').1) hω
      _ ≤ weigh (price call (read + ω) 0) (itemsUses (Stmt.isIdle options live')
            ((Context.mk options b.usage).pass.walk b).1.items) := weigh_walk hlive hmono hω hread
      _ = _ := by rw [weigh_reads, hend, Nat.add_zero]
  refine ⟨live', hmono, fun n hn => ?_, fun call => hweigh call 0 fun _ _ => rfl⟩
  by_cases hS : Replaces options b n
  · exact ((hlive' n).mp hn).2 hS
  · -- a name that is not inlined is read as often as before
    have hcount := hweigh 0 (fun m => if m = n then 1 else 0) fun m hm =>
      if_neg (by rintro rfl; exact hS hm)
    rw [weigh_indicator, weigh_indicator] at hcount
    exact List.count_pos_iff.mp ((List.count_pos_iff.mpr (hlive n (hmono n hn))).trans_le hcount)

theorem Sustains.folding (h : Sustains options live b) :
    Sustains options live (Folding.pass.walk b).1 := by
  intro n hn
  have hcount : (namesRead (itemsUses (Stmt.isIdle options live) (Folding.pass.walk b).1.items)).count n
      = (namesRead (itemsUses (Stmt.isIdle options live) b.items)).count n := by
    rw [← weigh_indicator, ← weigh_indicator]
    exact weigh_folding (fun s s' => isIdle_revised (Folding.tidy fun _ => true).name) b
  rw [← List.count_pos_iff, hcount, List.count_pos_iff]
  exact h n hn

/-! ## Runs -/

/-- Of what the block `b₀` calls, nothing is lost in `b`: it stands outside of the idle statements, for
live names that are separate. -/
structure Keeps (options : Options) (calls : Nat) (b : Block) (live : String → Bool) : Prop where
  separate : Separate options live b.items
  sustains : Sustains options live b
  calls_le : calls ≤ weigh (price 1 0 0) (itemsUses (Stmt.isIdle options live) b.items)

theorem Keeps.walk {calls : Nat} (h : Keeps options calls b live) :
    ∃ live', Keeps options calls ((Context.mk options b.usage).pass.walk b).1 live' := by
  obtain ⟨live', hmono, hlive', hle⟩ := h.sustains.exists_walk h.separate
  exact ⟨live', (h.separate.mono hmono).walk, hlive', h.calls_le.trans (hle 1)⟩

theorem Keeps.folding {calls : Nat} (h : Keeps options calls b live) :
    Keeps options calls (Folding.pass.walk b).1 live := by
  refine ⟨h.separate.folding, h.sustains.folding, ?_⟩
  rw [weigh_folding fun s s' => isIdle_revised (Folding.tidy fun _ => true).name]
  exact h.calls_le

theorem Keeps.simplify {calls : Nat} (h : Keeps options calls b live) :
    ∃ live', Keeps options calls (b.simplify options none).1 live' := by
  refine Pipeline.run_preserves (P := fun b => ∃ live, Keeps options calls b live)
    (Pipeline.standard options none) ?_ ⟨live, h⟩
  rintro r hr b' ⟨live', hb'⟩
  simp only [Pipeline.standard, Option.toList_none, List.map_nil, List.nil_append,
    List.mem_cons, List.not_mem_nil, or_false] at hr
  rcases hr with rfl | rfl
  · exact ⟨live', hb'.folding⟩
  · exact hb'.walk

end

/-- Calls are not lost.  If no idle statement holds a call, where every live name is read by something
that is not idle, and live temporaries are bound apart and declared by their first binding only, then no
fewer calls are left than there were.  A temporary may well be assigned again; if it is declared again,
the second declaration goes with the first (`calls_le_simplify_declared_twice`). -/
theorem calls_le_simplify (options : Options) (b : Block) (live : String → Bool)
    (hseparate : Separate options live b.items) (hlive : Sustains options live b)
    (hidle : ∀ q ∈ itemsBinders b.items, q.1.isIdle options live = true → .call ∉ allUses q.2) :
    b.calls ≤ (b.simplify options none).1.calls := by
  have hstart : b.calls ≤ weigh (price 1 0 0) (itemsUses (Stmt.isIdle options live) b.items) := by
    rw [calls_eq_weigh]
    refine reveal_items (R := fun us vs => weigh (price 1 0 0) us ≤ weigh (price 1 0 0) vs)
      (fun _ _ => le_rfl) ?_ _ ?_ (fun _ _ _ => le_rfl) fun _ _ h => by contradiction
    · intro us vs us' vs' h h'
      rw [weigh_append, weigh_append]
      exact Nat.add_le_add h h'
    · intro q hq _ hq'
      have hnone : weigh (price 1 0 0) (allUses q.2) = 0 := by
        refine weigh_eq_zero fun u hu => ?_
        cases u with
        | call => exact absurd hu (hidle q hq hq')
        | _ => rfl
      rw [weigh_append]
      exact (Nat.add_le_add_left hnone.le _).trans_eq (Nat.add_zero _)
  obtain ⟨live', hkeeps⟩ := Keeps.simplify ⟨hseparate, hlive, hstart⟩
  rw [calls_eq_weigh (b.simplify options none).1]
  exact hkeeps.calls_le.trans (weigh_sublist (itemsUses_sublist_allUses _ _))

namespace KeptCalls

/-- `local _1 = f() + a; local _2 = _1 + b; local _3 = c; x = _2; local _4 = g() + d;
_4 = h() + e; y = _4`: one call reaches `x` by way of two temporaries, the third is dead, and the fourth
stays as it is assigned again. -/
def chain : Block :=
  [.declare 1 ["_1"] [.binary .add (.call (.name "f") []) (.name "a")],
   .declare 2 ["_2"] [.binary .add (.name "_1") (.name "b")],
   .declare 3 ["_3"] [.name "c"], .assign 4 [.name "x"] [.name "_2"],
   .declare 5 ["_4"] [.binary .add (.call (.name "g") []) (.name "d")],
   .assign 6 [.name "_4"] [.binary .add (.call (.name "h") []) (.name "e")],
   .assign 7 [.name "y"] [.name "_4"]]

theorem binders_chain : itemsBinders chain.items =
    [(.declare 1 ["_1"] [.binary .add (.call (.name "f") []) (.name "a")],
        [.call, .read "f", .read "a"]),
     (.declare 2 ["_2"] [.binary .add (.name "_1") (.name "b")], [.read "_1", .read "b"]),
     (.declare 3 ["_3"] [.name "c"], [.read "c"]),
     (.assign 4 [.name "x"] [.name "_2"], [.read "_2"]),
     (.declare 5 ["_4"] [.binary .add (.call (.name "g") []) (.name "d")],
        [.call, .read "g", .read "d"]),
     (.assign 6 [.name "_4"] [.binary .add (.call (.name "h") []) (.name "e")],
        [.call, .read "h", .read "e"]),
     (.assign 7 [.name "y"] [.name "_4"], [.read "_4"])] := rfl

/-- Of the temporaries only the third is not live. -/
def live (n : String) : Bool := n == "_1" || n == "_2" || n == "_4"

/-- `local _1 = f()` -/
def unread : Block := [.declare 1 ["_1"] [.call (.name "f") []]]

/-- `local _1 = f() + a; local _1 = g() + b; x = _1`: both declarations go, and only the first value has
been inlined. -/
def declaredTwice : Block :=
  [.declare 1 ["_1"] [.binary .add (.call (.name "f") []) (.name "a")],
   .declare 2 ["_1"] [.binary .add (.call (.name "g") []) (.name "b")],
   .assign 3 [.name "x"] [.name "_1"]]

end KeptCalls

theorem calls_le_simplify_chain :
    (KeptCalls.chain.simplify .standard none).1 =
        [.assign 4 [.name "x"]
          [.binary .add (.binary .add (.call (.name "f") []) (.name "a")) (.name "b")],
         .declare 5 ["_4"] [.binary .add (.call (.name "g") []) (.name "d")],
         .assign 6 [.name "_4"] [.binary .add (.call (.name "h") []) (.name "e")],
         .assign 7 [.name "y"] [.name "_4"]] ∧
      KeptCalls.chain.calls ≤ (KeptCalls.chain.simplify .standard none).1.calls := by
  refine ⟨rfl, calls_le_simplify .standard KeptCalls.chain KeptCalls.live ?_ ?_ ?_⟩
  · intro n _ hmoves
    obtain ⟨q, hq, id, v, hbind, -⟩ := hmoves.bound
    have hwidth : ∀ q ∈ itemsBinders KeptCalls.chain.items, q.1.width = 1 := by decide
    have hfirst : ∀ q ∈ itemsBinders KeptCalls.chain.items, ∀ n ∈ q.1.names,
        DeclaredFirst (itemsBindings n KeptCalls.chain.items) := by decide
    exact ⟨fun q hq _ => hwidth q hq, hfirst q hq n (mem_names hbind)⟩
  · intro n hn
    have hread : namesRead (itemsUses (Stmt.isIdle .standard KeptCalls.live) KeptCalls.chain.items)
        = ["f", "a", "_1", "b", "_2", "g", "d", "h", "e", "_4"] := rfl
    rw [hread]
    simp only [KeptCalls.live, Bool.or_eq_true, beq_iff_eq] at hn
    rcases hn with (rfl | rfl) | rfl <;> decide
  · intro q hq hidle
    rw [KeptCalls.binders_chain] at hq
    simp only [List.mem_cons, List.not_mem_nil, or_false] at hq
    rcases hq with rfl | rfl | rfl | rfl | rfl | rfl | rfl
    · exact absurd hidle (by decide)
    · exact absurd hidle (by decide)
    · simp [allUses, itemsUses, Item.uses]
    · exact absurd hidle (by decide)
    · exact absurd hidle (by decide)
    · exact absurd hidle (by decide)
    · exact absurd hidle (by decide)

/-- A call is lost with the declaration that holds it, if nothing reads what is declared. -/
theorem calls_le_simplify_unread :
    ¬ ∀ (options : Options) (b : Block), (b.simplify options none).2.converged = true →
      b.calls ≤ (b.simplify options none).1.calls := by
  intro h
  have hrun : KeptCalls.unread.simplify .standard none = ([], ⟨2, 1, true⟩) := rfl
  have hle := h .standard KeptCalls.unread (by rw [hrun])
  rw [hrun] at hle
  exact absurd hle (by decide)

/-- A call is lost, though no idle statement holds one, with a second declaration of a temporary. -/
theorem calls_le_simplify_declared_twice :
    ¬ ∀ (options : Options) (b : Block) (live : String → Bool), Sustains options live b →
      (∀ q ∈ itemsBinders b.items, q.1.isIdle options live = true → .call ∉ allUses q.2) →
        b.calls ≤ (b.simplify options none).1.calls := by
  intro h
  have hrun : KeptCalls.declaredTwice.simplify .standard none =
      ([.assign 3 [.name "x"] [.binary .add (.call (.name "f") []) (.name "a")]], ⟨3, 2, true⟩) := rfl
  have hidle : ∀ q ∈ itemsBinders KeptCalls.declaredTwice.items,
      q.1.isIdle .standard (· == "_1") = false := by decide
  have hread : "_1" ∈ namesRead (itemsUses (Stmt.isIdle .standard (· == "_1"))
      KeptCalls.declaredTwice.items) := by decide
  have hle := h .standard KeptCalls.declaredTwice (· == "_1")
    (fun n hn => by rwa [beq_iff_eq.mp hn]) fun q hq hc => by
      rw [hidle q hq] at hc
      contradiction
  rw [hrun] at hle
  exact absurd hle (by decide)

end Devirt
