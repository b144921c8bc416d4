import Devirt.Pass.Pipeline
import Devirt.Proofs.Slots

set_option autoImplicit false

/-! # Names replaced until none is left

A pass that answers for names only, `σ n` for the name `n`, in the operands of element accesses and
binary operators and as the value of an assignment, expands an expression completely in one walk.
What a name expands to is told by a function `E` apart from the walk (`Expansion`): a name that is
not replaced stands for itself, and any other for what its replacement expands to.

A slot starts over with every answer of its hook.  How often that happens is bounded by the names that
are replaced by names, one after the other; `cost` counts them.  The operands below are expanded by
the time the hook is asked, but for a name right in the slot, so an answer puts in either the next name
or an expression that a single visit expands. -/

namespace Devirt

namespace Expr

/-! ## Expressions built from names -/

/-- Built from names with a property by element accesses and binary operators. -/
def BuiltFrom (P : String → Prop) : Expr → Prop
  | .name n => P n
  | .index t k => BuiltFrom P t ∧ BuiltFrom P k
  | .binary _ l r => BuiltFrom P l ∧ BuiltFrom P r
  | _ => False

/-- The expression with `E n` in place of each name `n`. -/
def fill (E : String → Expr) : Expr → Expr
  | .name n => E n
  | .index t k => .index (fill E t) (fill E k)
  | .binary op l r => .binary op (fill E l) (fill E r)
  | e => e

/-- What a slot with the expression is settled to: a name is left to the node around it. -/
def settled (E : String → Expr) : Expr → Expr
  | .name n => .name n
  | e => e.fill E

/-- A node with two operands. -/
inductive Fork where
  | index
  | binary (op : BinaryOp)

def Fork.of : Fork → Expr → Expr → Expr
  | index => .index
  | binary op => .binary op

variable {P Q : String → Prop} {E E' : String → Expr} {l r e : Expr}

@[simp] theorem builtFrom_fork (f : Fork) :
    (f.of l r).BuiltFrom P ↔ l.BuiltFrom P ∧ r.BuiltFrom P := by
  cases f <;> rfl

@[simp] theorem fill_fork (f : Fork) : (f.of l r).fill E = f.of (l.fill E) (r.fill E) := by
  cases f <;> rfl

@[simp] theorem settled_fork (f : Fork) : (f.of l r).settled E = f.of (l.fill E) (r.fill E) := by
  cases f <;> rfl

@[elab_as_elim] theorem BuiltFrom.rec_fork {motive : ∀ e : Expr, e.BuiltFrom P → Prop}
    (name : ∀ n (h : P n), motive (.name n) h)
    (fork : ∀ f l r (hl : l.BuiltFrom P) (hr : r.BuiltFrom P), motive l hl → motive r hr →
      motive (Fork.of f l r) ((builtFrom_fork f).mpr ⟨hl, hr⟩)) :
    ∀ {e : Expr} (h : e.BuiltFrom P), motive e h
  | .name n, h => name n h
  | .index t k, h => fork .index t k h.1 h.2 (rec_fork name fork h.1) (rec_fork name fork h.2)
  | .binary op l r, h =>
      fork (.binary op) l r h.1 h.2 (rec_fork name fork h.1) (rec_fork name fork h.2)

theorem BuiltFrom.mono (h : e.BuiltFrom P) (hPQ : ∀ n, P n → Q n) : e.BuiltFrom Q := by
  induction h using BuiltFrom.rec_fork with
  | name n hn => exact hPQ n hn
  | fork f l r _ _ ihl ihr => exact (builtFrom_fork f).mpr ⟨ihl, ihr⟩

theorem fill_congr (h : e.BuiltFrom P) (hE : ∀ n, P n → E n = E' n) : e.fill E = e.fill E' := by
  induction h using BuiltFrom.rec_fork with
  | name n hn => exact hE n hn
  | fork f l r _ _ ihl ihr => rw [fill_fork, fill_fork, ihl, ihr]

theorem fill_of_stays (h : e.BuiltFrom P) (hE : ∀ n, P n → E n = .name n) : e.fill E = e := by
  induction h using BuiltFrom.rec_fork with
  | name n hn => exact hE n hn
  | fork f l r _ _ ihl ihr => rw [fill_fork, ihl, ihr]

theorem fill_name (h : e.BuiltFrom P) : e.fill .name = e := fill_of_stays h fun _ _ => rfl

theorem builtFrom_fill (h : e.BuiltFrom P) (hE : ∀ n, P n → (E n).BuiltFrom Q) :
    (e.fill E).BuiltFrom Q := by
  induction h using BuiltFrom.rec_fork with
  | name n hn => exact hE n hn
  | fork f l r _ _ ihl ihr =>
      rw [fill_fork, builtFrom_fork]
      exact ⟨ihl, ihr⟩

/-- What is settled is a name as it was, or something else filled in. -/
theorem settled_eq (E : String → Expr) (e : Expr) :
    ((∃ n, e = .name n) ∧ e.settled E = e) ∨ (e.name? = none ∧ e.settled E = e.fill E) := by
  cases e with
  | name n => exact .inl ⟨⟨n, rfl⟩, rfl⟩
  | _ => exact .inr ⟨rfl, rfl⟩

end Expr

/-- What a statement is settled to. -/
def Stmt.settled (E : String → Expr) : Stmt → Stmt
  | .declare id names values => .declare id names (values.map (Expr.settled E))
  | .assign id targets values => .assign id (targets.map (Expr.fill E)) (values.map (Expr.fill E))
  | s => s

/-- No name that `σ` answers for stands where the answer is asked for. -/
def Stmt.Still (σ : String → Option Expr) : Stmt → Prop
  | .declare _ _ values => ∀ v ∈ values, v.name? = none → v.BuiltFrom fun n => σ n = none
  | .assign _ targets values => ∀ e ∈ targets ++ values, e.BuiltFrom fun n => σ n = none
  | _ => True

def Stmt.isDeclare : Stmt → Bool
  | .declare .. => true
  | _ => false

namespace Walk

open Devirt.Expr

theorem exprLevels_fork (f : Fork) (l r : Expr) :
    exprLevels (f.of l r) = max (exprLevels l) (exprLevels r) + 1 := by
  cases f <;> rfl

/-! ## What a walk reaches -/

@[simp] theorem Progress.halted_start : Progress.start.halted = false := rfl

/-- The walk leaves `x`, is not halted, and has replaced nothing on its way if `still` holds. -/
structure Reaches {α : Type} (r : α × Progress) (x : α) (w : Progress) (still : Prop) : Prop where
  result : r.1 = x
  going : r.2.halted = false
  quiet : still → r.2 = w

theorem Reaches.mono {α : Type} {r : α × Progress} {x : α} {w : Progress} {still still' : Prop}
    (h : Reaches r x w still) (himp : still' → still) : Reaches r x w still' :=
  ⟨h.result, h.going, fun hs => h.quiet (himp hs)⟩

/-- A slot is settled by rounds that each lower a bound, until the hook declines. -/
theorem settle_reaches {α : Type} {visit : α → Progress → α × Progress} {hook : α → Option α}
    (Inv : Nat → α → Prop) (still : α → Prop) {target : α}
    (hround : ∀ k x w, Inv k x → w.halted = false → ∃ y, Reaches (visit x w) y w (still x) ∧
      ((hook y = none ∧ y = target) ∨
        ∃ z k', hook y = some z ∧ k' < k ∧ Inv k' z ∧ ¬ still x))
    {n k : Nat} {x : α} {w : Progress} (hk : k < n) (hx : Inv k x) (hw : w.halted = false) :
    Reaches (settle visit hook n x w) target w (still x) := by
  induction n generalizing k x w with
  | zero => omega
  | succ n ih =>
      obtain ⟨y, hv, hcase⟩ := hround k x w hx hw
      rw [settle]
      generalize visit x w = r at hv
      obtain ⟨y', w'⟩ := r
      obtain rfl : y' = y := hv.result
      have hgoing : ¬ w'.halted = true := by simpa using hv.going
      simp only
      rw [if_neg hgoing]
      rcases hcase with ⟨hnone, rfl⟩ | ⟨z, k', hz, hlt, hinv, hnot⟩
      · rw [hnone]
        exact hv
      · rw [hz]
        have hrest := ih (w := w'.replaced) (by omega : k' < n) hinv hv.going
        exact ⟨hrest.result, hrest.going, fun hstill => absurd hstill hnot⟩

theorem visitList_reaches {α : Type} {f : α → Progress → α × Progress} {still : α → Prop}
    {xs ys : List α}
    (hf : List.Forall₂ (fun x y => ∀ w, w.halted = false → Reaches (f x w) y w (still x)) xs ys)
    {w : Progress} (hw : w.halted = false) :
    Reaches (visitList f xs w) ys w (∀ x ∈ xs, still x) := by
  induction hf generalizing w with
  | nil => exact ⟨rfl, hw, fun _ => rfl⟩
  | @cons x y xs ys hx _ ih =>
      have hx := hx w hw
      have hxs := ih hx.going
      refine ⟨?_, hxs.going, fun hstill => ?_⟩
      · rw [visitList, ← hx.result, ← hxs.result]
      · obtain ⟨hs, hss⟩ := List.forall_mem_cons.mp hstill
        exact (hxs.quiet hss).trans (hx.quiet hs)

/-- Walked over with enough fuel, the statement is settled to `s'`, and nothing is replaced on the way
if `still` holds. -/
def Settles (p : Pass) (s s' : Stmt) (still : Prop) : Prop :=
  ∀ fuel, maxDepth ≤ fuel → ∀ w, w.halted = false →
    Reaches (walkStmt p (fuel + 1) 0 s w) s' w still

/-- A pass that drops the statements that are `gone` settles a block to the statements that its own
are settled to, without those. -/
theorem block_reaches {p : Pass} {gone : Stmt → Bool}
    (hblock : ∀ b, p.block b = if b.any gone then some (b.filter fun s => !gone s) else none)
    {G : Stmt → Stmt → Prop} (still : Stmt → Prop)
    (hG : ∀ s s', G s s' → Settles p s s' (still s) ∧ G s' s' ∧ gone s' = gone s) {b b' : Block}
    (hb : List.Forall₂ G b b') :
    Reaches (p.walk b) (b'.filter fun s => !gone s) .start (∀ s ∈ b, still s ∧ gone s = false) := by
  obtain ⟨fuel, hfuel, henough⟩ := exists_enoughFuel b
  rw [Pass.walk, henough, walkBlock]
  -- statements that are dropped, if any, are dropped after the first visit
  refine settle_reaches
    (fun k x => (∃ y, List.Forall₂ G x y ∧
      (y.filter fun s => !gone s) = b'.filter fun s => !gone s) ∧ (x.any gone = true → 0 < k))
    (fun x => ∀ s ∈ x, still s ∧ gone s = false) ?_ (by decide : 1 < maxRounds)
    ⟨⟨b', hb, rfl⟩, fun _ => Nat.one_pos⟩ Progress.halted_start
  rintro k x w ⟨⟨y, hxy, htarget⟩, hk⟩ hw
  have hvisit := visitList_reaches (hxy.imp fun s s' h => (hG s s' h).1 fuel hfuel) hw
  have hany : y.any gone = x.any gone := by
    clear htarget hvisit hk
    induction hxy with
    | nil => rfl
    | cons h _ ih => rw [List.any_cons, List.any_cons, ih, (hG _ _ h).2.2]
  have hsame : ∀ s ∈ y, G s s := by
    clear htarget hvisit hk hany
    induction hxy with
    | nil => simp
    | cons h _ ih => exact List.forall_mem_cons.mpr ⟨(hG _ _ h).2.1, ih⟩
  refine ⟨y, hvisit.mono fun hall s hs => (hall s hs).1, ?_⟩
  rw [hblock, hany]
  by_cases hgone : x.any gone = true
  · have hkept : ∀ s ∈ y.filter fun s => !gone s, G s s :=
      fun s hs => hsame s (List.mem_of_mem_filter hs)
    refine .inr ⟨_, 0, if_pos hgone, hk hgone, ⟨⟨_, List.forall₂_same.mpr hkept, ?_⟩, ?_⟩, ?_⟩
    · rw [List.filter_filter, ← htarget]
      simp only [Bool.and_self]
    · intro hstill
      obtain ⟨s, hs, hgs⟩ := List.any_eq_true.mp hstill
      have := (List.mem_filter.mp hs).2
      rw [hgs] at this
      contradiction
    · intro hstill
      obtain ⟨s, hs, hgs⟩ := List.any_eq_true.mp hgone
      rw [(hstill s hs).2] at hgs
      contradiction
  · refine .inl ⟨if_neg hgone, ?_⟩
    rw [← htarget]
    refine (List.filter_eq_self.mpr fun s hs => ?_).symm
    rw [← hany, List.any_eq_true, not_exists] at hgone
    simpa using fun hgs => hgone s ⟨hs, hgs⟩

/-! ## Passes that answer for names -/

/-- The answer for an operand. -/
def answer (σ : String → Option Expr) : Expr → Option Expr
  | .name n => σ n
  | _ => none

/-- The answers for two operands, if there is one for either. -/
def answers (σ : String → Option Expr) (l r : Expr) : Option (Expr × Expr) :=
  match answer σ l, answer σ r with
  | none, none => none
  | l', r' => some (l'.getD l, r'.getD r)

theorem answers_of_none {σ : String → Option Expr} {l r : Expr} (hl : answer σ l = none)
    (hr : answer σ r = none) : answers σ l r = none := by
  rw [answers, hl, hr]

theorem answers_of_some {σ : String → Option Expr} {l r : Expr}
    (h : answer σ l ≠ none ∨ answer σ r ≠ none) :
    answers σ l r = some ((answer σ l).getD l, (answer σ r).getD r) := by
  unfold answers
  split
  · rename_i hl hr
    exact absurd h (by simp [hl, hr])
  · rfl

/-- How many names in a row may be put into a slot with the expression. -/
def slotCost (cost : String → Nat) : Expr → Nat
  | .name n => cost n
  | _ => 0

@[simp] theorem answer_fork (σ : String → Option Expr) (f : Fork) (l r : Expr) :
    answer σ (f.of l r) = none := by
  cases f <;> rfl

@[simp] theorem slotCost_fork (cost : String → Nat) (f : Fork) (l r : Expr) :
    slotCost cost (f.of l r) = 0 := by
  cases f <;> rfl

/-- The pass answers `σ` for names, drops the statements that are `gone`, and `E` tells what the names
in `Known` expand to. -/
structure Expansion (p : Pass) (σ : String → Option Expr) (E : String → Expr) (cost : String → Nat)
    (Known : String → Prop) (gone : Stmt → Bool) : Prop where
  fork : ∀ (f : Fork) (l r : Expr), l.BuiltFrom Known → r.BuiltFrom Known →
    p.onExpr (f.of l r) = (answers σ l r).map fun q => f.of q.1 q.2
  declare : ∀ id names values, p.declare id names values = none
  assign : ∀ id t k v, p.assign id [.index t k] [v]
    = (answer σ v).map fun v => .assign id [.index t k] [v]
  block : ∀ b, p.block b = if b.any gone then some (b.filter fun s => !gone s) else none
  /-- What is dropped is told by the names that a statement declares. -/
  gone_congr : ∀ id names values values',
    gone (.declare id names values) = gone (.declare id names values')
  gone_assign : ∀ id targets values, gone (.assign id targets values) = false
  stays : ∀ n, Known n → σ n = none → E n = .name n ∧ cost n = 0
  replaced : ∀ n e, Known n → σ n = some e →
    e.BuiltFrom Known ∧ e.fill E = E n ∧ slotCost cost e < cost n
  whole : ∀ n, Known n → (E n).BuiltFrom fun m => Known m ∧ σ m = none
  cheap : ∀ n, cost n < maxRounds

namespace Expansion

variable {p : Pass} {σ : String → Option Expr} {E : String → Expr} {cost : String → Nat}
  {Known : String → Prop} {gone : Stmt → Bool} (h : Expansion p σ E cost Known gone)

include h

theorem builtFrom_fill {e : Expr} (he : e.BuiltFrom Known) :
    (e.fill E).BuiltFrom fun m => Known m ∧ σ m = none :=
  Expr.builtFrom_fill he h.whole

theorem builtFrom_settled {e : Expr} (he : e.BuiltFrom Known) : (e.settled E).BuiltFrom Known := by
  cases he using BuiltFrom.rec_fork with
  | name n hn => exact hn
  | fork f l r hl hr =>
      have he : (f.of l r).BuiltFrom Known := (builtFrom_fork f).mpr ⟨hl, hr⟩
      rw [settled_fork, ← fill_fork]
      exact (h.builtFrom_fill he).mono fun _ hm => hm.1

theorem fill_fill {e : Expr} (he : e.BuiltFrom Known) : (e.fill E).fill E = e.fill E :=
  fill_of_stays (h.builtFrom_fill he) fun n hn => (h.stays n hn.1 hn.2).1

theorem slotCost_lt (e : Expr) : slotCost cost e < maxRounds := by
  cases e with
  | name n => exact h.cheap n
  | _ => exact Nat.zero_lt_succ _

/-- What is put into the slot of an operand that has been visited: either the hook declines and the
operand is expanded, or the cost goes down. -/
theorem operand {e : Expr} (he : e.BuiltFrom Known) :
    ∃ e', (answer σ (e.settled E)).getD (e.settled E) = e' ∧ e'.BuiltFrom Known ∧
      e'.fill E = e.fill E ∧
      ((answer σ (e.settled E) = none ∧ e' = e.fill E ∧ slotCost cost e' = 0) ∨
        (answer σ (e.settled E) = some e' ∧ slotCost cost e' < slotCost cost e ∧
          ¬ e.BuiltFrom fun n => σ n = none)) := by
  cases he using BuiltFrom.rec_fork with
  | name n hn =>
      change ∃ e', (σ n).getD (.name n) = e' ∧ e'.BuiltFrom Known ∧ e'.fill E = E n ∧
        ((σ n = none ∧ e' = E n ∧ slotCost cost e' = 0) ∨
          (σ n = some e' ∧ slotCost cost e' < cost n ∧ ¬ σ n = none))
      cases hσ : σ n with
      | none =>
          obtain ⟨hE, hcost⟩ := h.stays n hn hσ
          exact ⟨.name n, rfl, hn, rfl, .inl ⟨rfl, hE.symm, hcost⟩⟩
      | some e =>
          obtain ⟨hbuilt, hE, hcost⟩ := h.replaced n e hn hσ
          exact ⟨e, rfl, hbuilt, hE, .inr ⟨rfl, hcost, by simp⟩⟩
  | fork f l r hl hr =>
      have he : (f.of l r).BuiltFrom Known := (builtFrom_fork f).mpr ⟨hl, hr⟩
      have hsettled := h.builtFrom_settled he
      rw [settled_fork] at hsettled ⊢
      refine ⟨_, by rw [answer_fork, Option.getD_none], hsettled, ?_, .inl ⟨answer_fork .., ?_, ?_⟩⟩
      · rw [← fill_fork, h.fill_fill he]
      · rw [fill_fork]
      · rw [slotCost_fork]

/-! ## The walk of an expression -/

/-- A node with two operands is expanded, if visits expand the operands. -/
theorem settle_fork {onExpr : Expr → Progress → Expr × Progress}
    {onBlock : Block → Progress → Block × Progress} {f : Fork} {l r : Expr} {n : Nat} {w : Progress}
    (hon : ∀ e w, e.BuiltFrom Known → (e.fill E = l.fill E ∨ e.fill E = r.fill E) →
      w.halted = false →
      Reaches (onExpr e w) (e.settled E) w (e.BuiltFrom fun n => σ n = none))
    (hl : l.BuiltFrom Known) (hr : r.BuiltFrom Known) (hw : w.halted = false)
    (hn : max (slotCost cost l) (slotCost cost r) < n) :
    Reaches (settle (visitExpr onExpr onBlock) p.onExpr n (f.of l r) w) ((f.of l r).fill E) w
      ((f.of l r).BuiltFrom fun n => σ n = none) := by
  -- in each round the operands are visited, and what stands there is replaced
  refine settle_reaches
    (fun k x => ∃ l' r', x = f.of l' r' ∧ l'.BuiltFrom Known ∧ r'.BuiltFrom Known ∧
      l'.fill E = l.fill E ∧ r'.fill E = r.fill E ∧ slotCost cost l' ≤ k ∧ slotCost cost r' ≤ k)
    (fun x => x.BuiltFrom fun n => σ n = none) ?_ hn
    ⟨l, r, rfl, hl, hr, rfl, rfl, le_max_left .., le_max_right ..⟩ hw
  rintro k _ w ⟨l', r', rfl, hl', hr', hfl, hfr, hkl, hkr⟩ hw
  have hvl := hon l' w hl' (.inl hfl) hw
  have hvr := hon r' (onExpr l' w).2 hr' (.inr hfr) hvl.going
  have hvisit : Reaches (visitExpr onExpr onBlock (f.of l' r') w) (f.of (l'.settled E) (r'.settled E))
      w ((f.of l' r').BuiltFrom fun n => σ n = none) := by
    have hpair : visitExpr onExpr onBlock (f.of l' r') w =
        (f.of (onExpr l' w).1 (onExpr r' (onExpr l' w).2).1, (onExpr r' (onExpr l' w).2).2) := by
      cases f <;> rfl
    rw [hpair, builtFrom_fork]
    refine ⟨?_, hvr.going, fun ⟨hsl, hsr⟩ => (hvr.quiet hsr).trans (hvl.quiet hsl)⟩
    simp only
    rw [hvl.result, hvr.result]
  refine ⟨_, hvisit, ?_⟩
  rw [h.fork f _ _ (h.builtFrom_settled hl') (h.builtFrom_settled hr')]
  obtain ⟨l'', hgl, hbl, hel, hcl⟩ := h.operand hl'
  obtain ⟨r'', hgr, hbr, her, hcr⟩ := h.operand hr'
  by_cases hboth : answer σ (l'.settled E) = none ∧ answer σ (r'.settled E) = none
  · refine .inl ⟨by rw [answers_of_none hboth.1 hboth.2]; rfl, ?_⟩
    rw [hboth.1, Option.getD_none] at hgl
    rw [hboth.2, Option.getD_none] at hgr
    have hl'' := hcl.resolve_right fun hc => by simp [hboth.1] at hc
    have hr'' := hcr.resolve_right fun hc => by simp [hboth.2] at hc
    rw [hgl, hgr, hl''.2.1, hr''.2.1, hfl, hfr, fill_fork]
  · rw [not_and_or] at hboth
    rw [answers_of_some hboth, hgl, hgr]
    -- where one declines nothing more is to be put in, and the other goes down
    have hcost : slotCost cost l'' < k ∧ slotCost cost r'' < k ∧
        ¬ (f.of l' r').BuiltFrom fun n => σ n = none := by
      rw [builtFrom_fork]
      rcases hcl with ⟨hl'', -, hzl⟩ | ⟨-, hltl, hstill⟩ <;>
        rcases hcr with ⟨hr'', -, hzr⟩ | ⟨-, hltr, hstill'⟩
      · exact absurd hboth (by simp [hl'', hr''])
      · exact ⟨by omega, by omega, fun hc => hstill' hc.2⟩
      · exact ⟨by omega, by omega, fun hc => hstill hc.1⟩
      · exact ⟨by omega, by omega, fun hc => hstill hc.1⟩
    refine .inr ⟨f.of l'' r'', k - 1, rfl, by omega, ?_, hcost.2.2⟩
    exact ⟨l'', r'', rfl, hbl, hbr, hel.trans hfl, her.trans hfr, by omega, by omega⟩

omit h in
theorem walkExpr_name (p : Pass) (fuel : Nat) {depth : Nat} (n : String) {w : Progress}
    (hw : w.halted = false) (hdepth : depth < maxDepth) :
    walkExpr p (fuel + 1) depth (.name n) w = (.name n, w) := by
  have hgoing : ¬ w.halted = true := by simpa using hw
  rw [walkExpr, if_neg hgoing, if_neg (by omega), show maxRounds = 255 + 1 from rfl, settle]
  exact if_neg hgoing

/-- A walk expands an expression, and leaves a name as it is. -/
theorem walkExpr_reaches (fuel : Nat) {depth : Nat} {e : Expr} {w : Progress}
    (he : e.BuiltFrom Known) (hw : w.halted = false) (hfuel : exprLevels (e.fill E) ≤ fuel)
    (hdepth : depth + exprLevels (e.fill E) ≤ maxDepth) :
    Reaches (walkExpr p fuel depth e w) (e.settled E) w
      (e.name? = none → e.BuiltFrom fun n => σ n = none) := by
  induction fuel generalizing depth e w with
  | zero =>
      have := exprLevels_pos (e.fill E)
      omega
  | succ fuel ih =>
      have hpos := exprLevels_pos (e.fill E)
      cases he using BuiltFrom.rec_fork with
      | name n hn =>
          rw [walkExpr_name p fuel n hw (by omega)]
          exact ⟨rfl, hw, fun _ => rfl⟩
      | fork f l r hl hr =>
          have hgoing : ¬ w.halted = true := by simpa using hw
          have hnoname : (f.of l r).name? = none := by cases f <;> rfl
          rw [walkExpr, if_neg hgoing, if_neg (by omega)]
          rw [fill_fork, exprLevels_fork] at hfuel hdepth
          rw [settled_fork, ← fill_fork]
          refine (h.settle_fork (fun e w he hside hw => ?_) hl hr hw
            (max_lt (h.slotCost_lt l) (h.slotCost_lt r))).mono fun hstill => hstill hnoname
          have hlevels : exprLevels (e.fill E) ≤ max (exprLevels (l.fill E)) (exprLevels (r.fill E)) := by
            rcases hside with hside | hside <;> rw [hside]
            · exact le_max_left ..
            · exact le_max_right ..
          exact (ih he hw (by omega) (by omega)).mono fun hbuilt _ => hbuilt

end Expansion

/-! ## The walk of a block -/

/-- The statements that are walked over here: single declarations, of a name or of an expression that
does not get too deep, and assignments to an element. -/
inductive Ready (Known : String → Prop) (E : String → Expr) : Stmt → Prop where
  | copy (id : NodeId) (n m : String) : Ready Known E (.declare id [n] [.name m])
  | declare (id : NodeId) (n : String) {v : Expr} (hv : v.BuiltFrom Known)
      (hlevels : exprLevels (v.fill E) ≤ maxDepth) : Ready Known E (.declare id [n] [v])
  | assign (id : NodeId) {t k v : Expr} (ht : (Expr.index t k).BuiltFrom Known)
      (hv : v.BuiltFrom Known) (htarget : exprLevels ((Expr.index t k).fill E) ≤ maxDepth)
      (hvalue : exprLevels (v.fill E) ≤ maxDepth) : Ready Known E (.assign id [.index t k] [v])

/-- One visit is enough where the hook declines. -/
theorem settle_once {α : Type} {visit : α → Progress → α × Progress} {hook : α → Option α} {x y : α}
    {still : Prop} (hvisit : ∀ w, w.halted = false → Reaches (visit x w) y w still)
    (hhook : hook y = none) {n : Nat} (hn : 0 < n) {w : Progress} (hw : w.halted = false) :
    Reaches (settle visit hook n x w) y w still := by
  refine settle_reaches (fun _ x' => x' = x) (fun _ => still) ?_ hn rfl hw
  rintro _ _ w rfl hw
  exact ⟨y, hvisit w hw, .inl ⟨hhook, rfl⟩⟩

namespace Expansion

variable {p : Pass} {σ : String → Option Expr} {E : String → Expr} {cost : String → Nat}
  {Known : String → Prop} {gone : Stmt → Bool} (h : Expansion p σ E cost Known gone)

include h

theorem settled_settled {e : Expr} (he : e.BuiltFrom Known) :
    (e.settled E).settled E = e.settled E := by
  cases he using BuiltFrom.rec_fork with
  | name n hn => rfl
  | fork f l r hl hr =>
      have he : (f.of l r).BuiltFrom Known := (builtFrom_fork f).mpr ⟨hl, hr⟩
      have hfill := h.fill_fill he
      rw [fill_fork] at hfill
      rw [settled_fork, settled_fork, ← fill_fork, hfill]

theorem gone_settled {s : Stmt} (hs : Ready Known E s) : gone (s.settled E) = gone s := by
  cases hs with
  | copy id n m => rfl
  | declare id n hv hlevels => exact h.gone_congr ..
  | assign id ht hv htarget hvalue => exact (h.gone_assign ..).trans (h.gone_assign ..).symm

theorem ready_settled {s : Stmt} (hs : Ready Known E s) : Ready Known E (s.settled E) := by
  cases hs with
  | copy id n m => exact .copy id n m
  | @declare id n v hv hlevels =>
      cases hv using BuiltFrom.rec_fork with
      | name m hm => exact .copy id n m
      | fork f l r hl hr =>
          have he : (f.of l r).BuiltFrom Known := (builtFrom_fork f).mpr ⟨hl, hr⟩
          have hfill := h.builtFrom_fill he
          rw [Stmt.settled, List.map_singleton, settled_fork, ← fill_fork]
          refine .declare id n (hfill.mono fun _ hm => hm.1) ?_
          rw [h.fill_fill he]
          exact hlevels
  | assign id ht hv htarget hvalue =>
      refine .assign id ((h.builtFrom_fill ht).mono fun _ hm => hm.1)
        ((h.builtFrom_fill hv).mono fun _ hm => hm.1) ?_ ?_
      · rw [← fill, h.fill_fill ht]
        exact htarget
      · rw [h.fill_fill hv]
        exact hvalue

theorem stmt_settled_settled {s : Stmt} (hs : Ready Known E s) :
    (s.settled E).settled E = s.settled E := by
  cases hs with
  | copy id n m => rfl
  | declare id n hv hlevels =>
      simp only [Stmt.settled, List.map_singleton, h.settled_settled hv]
  | assign id ht hv htarget hvalue =>
      simp only [Stmt.settled, List.map_singleton, h.fill_fill ht, h.fill_fill hv]

/-- A walk expands a statement. -/
theorem settles {s : Stmt} (hs : Ready Known E s) : Settles p s (s.settled E) (s.Still σ) := by
  intro fuel hfuel w hw
  rw [walkStmt]
  cases hs with
  | copy id n m =>
      refine settle_once (fun w hw => ?_) (h.declare ..) (by decide) hw
      obtain ⟨fuel, rfl⟩ : ∃ k, fuel = k + 1 := ⟨fuel - 1, by unfold maxDepth at hfuel; omega⟩
      simp only [visitStmt, visitList, walkExpr_name p fuel m hw (by decide : 0 < maxDepth)]
      exact ⟨rfl, hw, fun _ => rfl⟩
  | @declare id n v hv hlevels =>
      refine settle_once (fun w hw => ?_) (h.declare ..) (by decide) hw
      have hwalk : Reaches (walkExpr p fuel 0 v w) _ w _ :=
        h.walkExpr_reaches fuel hv hw (hlevels.trans hfuel) (by omega)
      refine ⟨?_, hwalk.going, fun hstill => hwalk.quiet (hstill v List.mem_cons_self)⟩
      simp only [visitStmt, visitList, Stmt.settled, List.map_cons, List.map_nil, hwalk.result]
  | @assign id t k v ht hv htarget hvalue =>
      -- in each round the target is expanded, and what is assigned is replaced
      refine settle_reaches
        (fun c x => ∃ t' k' v', x = .assign id [.index t' k'] [v'] ∧
          (Expr.index t' k').BuiltFrom Known ∧ v'.BuiltFrom Known ∧
          (Expr.index t' k').fill E = (Expr.index t k).fill E ∧ v'.fill E = v.fill E ∧
          slotCost cost v' ≤ c)
        (Stmt.Still σ) ?_ (h.slotCost_lt v) ⟨t, k, v, rfl, ht, hv, rfl, rfl, le_rfl⟩ hw
      rintro c _ w ⟨t', k', v', rfl, ht', hv', hft, hfv, hc⟩ hw
      have hwt : Reaches (walkExpr p fuel 0 (.index t' k') w) _ w _ :=
        h.walkExpr_reaches fuel ht' hw (by rw [hft]; omega) (by rw [hft]; omega)
      have hwv : Reaches (walkExpr p fuel 0 v' (walkExpr p fuel 0 (.index t' k') w).2) _ _ _ :=
        h.walkExpr_reaches fuel hv' hwt.going (by rw [hfv]; omega) (by rw [hfv]; omega)
      refine ⟨.assign id [(Expr.index t' k').fill E] [v'.settled E], ⟨?_, hwv.going, ?_⟩, ?_⟩
      · simp only [visitStmt, visitList, hwt.result, hwv.result]
        rfl
      · intro hstill
        exact (hwv.quiet fun _ => hstill v' (by simp)).trans
          (hwt.quiet fun _ => hstill _ (by simp))
      · have hhook : p.onStmt (.assign id [(Expr.index t' k').fill E] [v'.settled E]) =
            (answer σ (v'.settled E)).map fun v => .assign id [(Expr.index t' k').fill E] [v] :=
          h.assign ..
        rw [hhook]
        obtain ⟨v'', hgv, hbv, hev, hcv⟩ := h.operand hv'
        rcases hcv with ⟨hnone, hfull, -⟩ | ⟨hsome, hlt, hnot⟩
        · refine .inl ⟨by rw [hnone]; rfl, ?_⟩
          rw [hnone, Option.getD_none] at hgv
          rw [hgv, hfull, hft, hfv]
          rfl
        · refine .inr ⟨_, slotCost cost v'', by rw [hsome]; rfl, by omega, ?_, ?_⟩
          · exact ⟨_, _, v'', rfl, (h.builtFrom_fill ht').mono fun _ hm => hm.1, hbv,
              (h.fill_fill ht').trans hft, hev.trans hfv, le_rfl⟩
          · exact fun hstill => hnot (hstill v' (by simp))

end Expansion

/-! ## The passes that expand -/

/-- Folding leaves what is built from names. -/
theorem expansion_folding : Expansion Folding.pass (fun _ => none) .name (fun _ => 0)
    (fun _ => True) fun _ => false where
  fork f l r hl _ := by
    have hnone : answers (fun _ => none) l r = none := by
      cases l <;> cases r <;> rfl
    rw [hnone]
    cases f with
    | index => rfl
    | binary op => cases hl using BuiltFrom.rec_fork with
      | name n hn => cases op <;> rfl
      | fork f l r => cases f <;> cases op <;> rfl
  declare _ _ _ := rfl
  assign _ _ _ v := by cases v <;> rfl
  block b := by simp [Folding.pass]
  gone_congr _ _ _ _ := rfl
  gone_assign _ _ _ := rfl
  stays _ _ _ := ⟨rfl, rfl⟩
  replaced _ _ _ h := by contradiction
  whole _ _ := ⟨trivial, rfl⟩
  cheap _ := by decide

/-- Collapsing temporaries expands names to what the rules substitute for them. -/
theorem expansion_temporaries {c : Temporaries.Context} {E : String → Expr} {cost : String → Nat}
    {Known : String → Prop}
    (hstays : ∀ n, Known n → c.substitute (.name n) = none → E n = .name n ∧ cost n = 0)
    (hreplaced : ∀ n e, Known n → c.substitute (.name n) = some e →
      e.BuiltFrom Known ∧ e.fill E = E n ∧ slotCost cost e < cost n)
    (hwhole : ∀ n, Known n → (E n).BuiltFrom fun m => Known m ∧ c.substitute (.name m) = none)
    (hcheap : ∀ n, cost n < maxRounds) :
    Expansion c.pass (fun n => c.substitute (.name n)) E cost Known c.isDeadStmt where
  fork f l r _ _ := by
    have hanswer : ∀ e, answer (fun n => c.substitute (.name n)) e = c.substitute e := by
      intro e
      cases e <;> rfl
    have hanswers : answers (fun n => c.substitute (.name n)) l r = c.substitutePair l r := by
      rw [answers, hanswer, hanswer]
      rfl
    rw [hanswers]
    cases f <;> rfl
  declare _ _ _ := rfl
  assign _ _ _ v := by cases v <;> rfl
  block _ := rfl
  gone_congr _ _ _ _ := rfl
  gone_assign _ _ _ := rfl
  stays := hstays
  replaced := hreplaced
  whole := hwhole
  cheap := hcheap

end Walk

end Devirt
