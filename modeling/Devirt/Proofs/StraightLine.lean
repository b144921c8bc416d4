import Devirt.Proofs.Replacement
import Devirt.Proofs.TemporaryRules
import Devirt.Proofs.UsageTable

set_option autoImplicit false

/-! # Straight-line code keeps its values

A block of single bindings, of names to expressions of names, numbers, element accesses and binary
operators, is executed in an environment that gives every name a value.  When each name is bound at
most once and never read before, collapsing temporaries changes the final value of no name that can
be observed: one that is neither a temporary nor declared by a `local` (`exec_collapsed`).

The proof rests on the final environment.  A name that is read is not bound again, so every
expression has its value at the end as well, and a block is described by equations between final
values (`Frame.Binds`) and by the order of its names.  Substituting the value of a temporary keeps
the equations; dropping a dead declaration drops the equation of a name that is not read. -/

namespace Devirt

/-- Numbers, element access and binary operators as total functions on values. -/
structure Interpretation (V : Type) where
  number : Double → V
  element : V → V → V
  operation : BinaryOp → V → V → V

namespace StraightLine

open Temporaries Temporaries.Context

variable {V : Type}

/-! ## Execution -/

/-- Built from names, numbers, element accesses and binary operators. -/
def isPlain : Expr → Bool
  | .name _ | .number _ => true
  | .index t k => isPlain t && isPlain k
  | .binary _ l r => isPlain l && isPlain r
  | _ => false

/-- The value of a plain expression. -/
def value (I : Interpretation V) (ρ : String → V) : Expr → Option V
  | .name n => some (ρ n)
  | .number x => some (I.number x)
  | .index t k => do return I.element (← value I ρ t) (← value I ρ k)
  | .binary op l r => do return I.operation op (← value I ρ l) (← value I ρ r)
  | _ => none

/-- Name and value of a statement that binds one name to one value. -/
def binding? : Stmt → Option (String × Expr)
  | .declare _ [n] [e] => some (n, e)
  | .assign _ [.name n] [e] => some (n, e)
  | _ => none

/-- The environment after a block of single bindings. -/
def exec (I : Interpretation V) : (String → V) → Block → Option (String → V)
  | ρ, [] => some ρ
  | ρ, s :: rest => do
    let (n, e) ← binding? s
    let v ← value I ρ e
    exec I (Function.update ρ n v) rest

/-- The names that the statements of a block bind. -/
def bound (b : Block) : List String := b.filterMap fun s => (binding? s).map Prod.fst

/-- Every statement binds one name to a plain value, which it reads from names that neither it nor
a later statement binds; no later statement binds its name again. -/
def SingleAssignment : Block → Prop
  | [] => True
  | s :: rest =>
    (∃ n e, binding? s = some (n, e) ∧ isPlain e ∧ n ∉ bound rest ∧
      ∀ m ∈ n :: bound rest, e.mentions m = false) ∧ SingleAssignment rest

/-- A `local` statement of the block names it. -/
def IsLocal (b : Block) (n : String) : Prop :=
  ∃ id names values, Stmt.declare id names values ∈ b ∧ n ∈ names

/-! ## Values -/

theorem value_index {I : Interpretation V} {ρ : String → V} {t k : Expr} {v : V} :
    value I ρ (.index t k) = some v ↔
      ∃ x y, value I ρ t = some x ∧ value I ρ k = some y ∧ I.element x y = v := by
  simp only [value]
  cases value I ρ t <;> cases value I ρ k <;> simp

theorem value_binary {I : Interpretation V} {ρ : String → V} {op : BinaryOp} {l r : Expr} {v : V} :
    value I ρ (.binary op l r) = some v ↔
      ∃ x y, value I ρ l = some x ∧ value I ρ r = some y ∧ I.operation op x y = v := by
  simp only [value]
  cases value I ρ l <;> cases value I ρ r <;> simp

theorem exists_value (I : Interpretation V) (ρ : String → V) :
    ∀ e : Expr, isPlain e → ∃ v, value I ρ e = some v
  | .name n, _ => ⟨ρ n, rfl⟩
  | .number x, _ => ⟨I.number x, rfl⟩
  | .index t k, h => by
      simp only [isPlain, Bool.and_eq_true] at h
      obtain ⟨x, hx⟩ := exists_value I ρ t h.1
      obtain ⟨y, hy⟩ := exists_value I ρ k h.2
      exact ⟨_, value_index.mpr ⟨x, y, hx, hy, rfl⟩⟩
  | .binary op l r, h => by
      simp only [isPlain, Bool.and_eq_true] at h
      obtain ⟨x, hx⟩ := exists_value I ρ l h.1
      obtain ⟨y, hy⟩ := exists_value I ρ r h.2
      exact ⟨_, value_binary.mpr ⟨x, y, hx, hy, rfl⟩⟩

/-- The value of an expression depends on the names it mentions. -/
theorem value_congr (I : Interpretation V) {ρ σ : String → V} :
    ∀ e : Expr, (∀ n, e.mentions n = true → ρ n = σ n) → value I ρ e = value I σ e
  | .name n, h => by simp [value, h n (by simp [Expr.mentions])]
  | .index t k, h => by
      have ht := value_congr I t fun n hn => h n (by simp [Expr.mentions, hn])
      have hk := value_congr I k fun n hn => h n (by simp [Expr.mentions, hn])
      simp only [value, ht, hk]
  | .binary op l r, h => by
      have hl := value_congr I l fun n hn => h n (by simp [Expr.mentions, hn])
      have hr := value_congr I r fun n hn => h n (by simp [Expr.mentions, hn])
      simp only [value, hl, hr]
  | .number _, _ | .nil, _ | .bool _, _ | .string _, _ | .vararg, _ | .unary .., _
  | .member .., _ | .call .., _ | .table _, _ | .function .., _ => rfl

/-! ## Single assignments -/

theorem binding?_declare {id : NodeId} {names : List String} {values : List Expr} {n : String}
    {e : Expr} (h : binding? (.declare id names values) = some (n, e)) :
    names = [n] ∧ values = [e] := by
  match names, values, h with
  | [m], [e'], h => simpa [binding?] using h

theorem binding?_assign {id : NodeId} {targets values : List Expr} {n : String} {e : Expr}
    (h : binding? (.assign id targets values) = some (n, e)) :
    targets = [.name n] ∧ values = [e] := by
  match targets, values, h with
  | [.name m], [e'], h => simpa [binding?] using h

theorem bound_cons {s : Stmt} {n : String} {e : Expr} (h : binding? s = some (n, e))
    (b : Block) : bound (s :: b) = n :: bound b := by
  simp [bound, h]

/-- Single assignments can be executed; what they bind satisfies their equations at the end, and
all else is as before. -/
theorem exists_exec (I : Interpretation V) {b : Block} (h : SingleAssignment b) (ρ : String → V) :
    ∃ σ, exec I ρ b = some σ ∧ (∀ n, n ∉ bound b → σ n = ρ n) ∧
      ∀ s ∈ b, ∀ n e, binding? s = some (n, e) → value I σ e = some (σ n) := by
  -- The first statement has its value in `ρ`; nothing it reads or binds is bound again, so its
  -- equation holds in the final environment too.
  induction b generalizing ρ with
  | nil => exact ⟨ρ, rfl, fun _ _ => rfl, by simp⟩
  | cons s rest ih =>
      obtain ⟨⟨n, e, hs, hplain, hn, hreads⟩, hrest⟩ := h
      obtain ⟨v, hv⟩ := exists_value I ρ e hplain
      obtain ⟨σ, hσ, hframe, heqs⟩ := ih hrest (Function.update ρ n v)
      have hσn : σ n = v := by rw [hframe n hn, Function.update_self]
      have hunbound : ∀ m, m ∉ n :: bound rest → σ m = ρ m := by
        intro m hm
        rw [List.mem_cons, not_or] at hm
        rw [hframe m hm.2, Function.update_of_ne hm.1]
      refine ⟨σ, by simp [exec, hs, hv, hσ], ?_, ?_⟩
      · intro m hm
        rw [bound_cons hs] at hm
        exact hunbound m hm
      · intro s' hs' m e' hb
        rcases List.mem_cons.mp hs' with rfl | hmem
        · obtain ⟨rfl, rfl⟩ : n = m ∧ e = e' := by simpa using hs.symm.trans hb
          have hsame : value I σ e = value I ρ e := by
            apply value_congr
            intro m hm
            have hm' : m ∉ n :: bound rest := by
              intro hc
              rw [hreads m hc] at hm
              contradiction
            exact hunbound m hm'
          rw [hsame, hv, hσn]
        · exact heqs s' hmem m e' hb

/-- The names can be ranked so that every statement reads names of a lower rank than it binds, and
later statements bind names of a higher rank. -/
theorem exists_rank {b : Block} (h : SingleAssignment b) :
    ∃ rank : String → Nat, (bound b).Pairwise (rank · < rank ·) ∧ (∀ n ∈ bound b, 0 < rank n) ∧
      ∀ s ∈ b, ∀ n e, binding? s = some (n, e) → ∀ m, e.mentions m = true → rank m < rank n := by
  induction b with
  | nil => exact ⟨fun _ => 0, by simp [bound], by simp [bound], by simp⟩
  | cons s rest ih =>
      obtain ⟨⟨n, e, hs, -, hn, hreads⟩, hrest⟩ := h
      obtain ⟨rank, hpair, hpos, hlow⟩ := ih hrest
      -- `n` comes right before the names that the rest binds, all other names before it
      let rank' : String → Nat := fun m =>
        if m = n then 1 else if m ∈ bound rest then rank m + 1 else 0
      have hself : rank' n = 1 := if_pos rfl
      have hlater : ∀ m ∈ bound rest, rank' m = rank m + 1 := by
        intro m hm
        have hne : m ≠ n := fun hc => hn (hc ▸ hm)
        simp [rank', hne, hm]
      have hle : ∀ m, rank' m ≤ rank m + 1 := by
        intro m
        simp only [rank']
        split_ifs <;> omega
      refine ⟨rank', ?_, ?_, ?_⟩
      · rw [bound_cons hs, List.pairwise_cons]
        constructor
        · intro m hm
          rw [hself, hlater m hm]
          have := hpos m hm
          omega
        · refine hpair.imp_of_mem fun ha hb hab => ?_
          rw [hlater _ ha, hlater _ hb]
          omega
      · intro m hm
        rw [bound_cons hs, List.mem_cons] at hm
        rcases hm with rfl | hm
        · omega
        · rw [hlater m hm]
          omega
      · intro s' hs' m e' hb k hk
        rcases List.mem_cons.mp hs' with rfl | hmem
        · obtain ⟨rfl, rfl⟩ : n = m ∧ e = e' := by simpa using hs.symm.trans hb
          have hk' : k ∉ n :: bound rest := by
            intro hc
            rw [hreads k hc] at hk
            contradiction
          rw [List.mem_cons, not_or] at hk'
          simp [rank', hk'.1, hk'.2]
        · have hm : m ∈ bound rest := List.mem_filterMap.mpr ⟨s', hmem, by simp [hb]⟩
          have := hlow s' hmem m e' hb k hk
          have := hle k
          rw [hlater m hm]
          omega

/-! ## Equations between final values -/

/-- What stays fixed while a block is rewritten: the final value and the rank of every name, the
names that may be read, and the names that nobody observes. -/
structure Frame (V : Type) where
  meaning : Interpretation V
  final : String → V
  rank : String → Nat
  live : String → Prop
  hidden : String → Prop

namespace Frame

variable (fr : Frame V)

/-- The expression has the final value `v`, and reads live names of rank below `r` only. -/
structure Settled (r : Nat) (v : V) (e : Expr) : Prop where
  value_eq : value fr.meaning fr.final e = some v
  reads : ∀ m, e.mentions m = true → fr.rank m < r ∧ fr.live m

/-- The statement binds `n` to an expression that has the final value of `n`. -/
structure Binds (s : Stmt) (n : String) : Prop where
  equation : ∃ e, binding? s = some (n, e) ∧ fr.Settled (fr.rank n) (fr.final n) e
  isLocal : ∀ id names values, s = .declare id names values → fr.hidden n

variable {fr}

theorem Settled.mono {r r' : Nat} {v : V} {e : Expr} (h : fr.Settled r v e) (hr : r ≤ r') :
    fr.Settled r' v e :=
  ⟨h.value_eq, fun m hm => ⟨Nat.lt_of_lt_of_le (h.reads m hm).1 hr, (h.reads m hm).2⟩⟩

theorem settled_name {r : Nat} {v : V} {n : String} :
    fr.Settled r v (.name n) ↔ fr.final n = v ∧ fr.rank n < r ∧ fr.live n := by
  constructor
  · intro h
    exact ⟨Option.some.inj h.value_eq, h.reads n (by simp [Expr.mentions])⟩
  · rintro ⟨rfl, hn⟩
    refine ⟨rfl, fun m hm => ?_⟩
    obtain rfl : n = m := by simpa [Expr.mentions] using hm
    exact hn

/-- The halves of a compound expression read no more than the whole. -/
theorem Settled.halves {r : Nat} {v x y : V} {e a b : Expr} (h : fr.Settled r v e)
    (he : ∀ m, e.mentions m = (a.mentions m || b.mentions m))
    (ha : value fr.meaning fr.final a = some x) (hb : value fr.meaning fr.final b = some y) :
    fr.Settled r x a ∧ fr.Settled r y b := by
  constructor
  · refine ⟨ha, fun m hm => h.reads m ?_⟩
    rw [he, hm, Bool.true_or]
  · refine ⟨hb, fun m hm => h.reads m ?_⟩
    rw [he, hm, Bool.or_true]

/-- A compound expression reads what its halves read. -/
theorem Settled.whole {r : Nat} {v x y : V} {e a b : Expr} (ha : fr.Settled r x a)
    (hb : fr.Settled r y b) (he : ∀ m, e.mentions m = (a.mentions m || b.mentions m))
    (hv : value fr.meaning fr.final e = some v) : fr.Settled r v e := by
  refine ⟨hv, fun m hm => ?_⟩
  rw [he, Bool.or_eq_true] at hm
  rcases hm with hm | hm
  · exact ha.reads m hm
  · exact hb.reads m hm

theorem settled_index {r : Nat} {v : V} {t k : Expr} :
    fr.Settled r v (.index t k) ↔
      ∃ x y, fr.Settled r x t ∧ fr.Settled r y k ∧ fr.meaning.element x y = v := by
  constructor
  · intro h
    obtain ⟨x, y, hx, hy, hv⟩ := value_index.mp h.value_eq
    obtain ⟨ht, hk⟩ := h.halves (fun m => by rw [Expr.mentions]) hx hy
    exact ⟨x, y, ht, hk, hv⟩
  · rintro ⟨x, y, ht, hk, hv⟩
    have hvalue := value_index.mpr ⟨x, y, ht.value_eq, hk.value_eq, hv⟩
    exact ht.whole hk (fun m => by rw [Expr.mentions]) hvalue

theorem settled_binary {r : Nat} {v : V} {op : BinaryOp} {a b : Expr} :
    fr.Settled r v (.binary op a b) ↔
      ∃ x y, fr.Settled r x a ∧ fr.Settled r y b ∧ fr.meaning.operation op x y = v := by
  constructor
  · intro h
    obtain ⟨x, y, hx, hy, hv⟩ := value_binary.mp h.value_eq
    obtain ⟨ha, hb⟩ := h.halves (fun m => by rw [Expr.mentions]) hx hy
    exact ⟨x, y, ha, hb, hv⟩
  · rintro ⟨x, y, ha, hb, hv⟩
    have hvalue := value_binary.mpr ⟨x, y, ha.value_eq, hb.value_eq, hv⟩
    exact ha.whole hb (fun m => by rw [Expr.mentions]) hvalue

/-! ## Substitution -/

/-- The table is true of the final environment: the value it gives for a name is settled. -/
def Knows (fr : Frame V) (c : Context) : Prop :=
  ∀ n v e, c.usage.get? n = some v → v.value = some e →
    fr.Settled (fr.rank n) (fr.final n) e

variable {c : Context}

theorem settled_substitute (hc : fr.Knows c) {r : Nat} {v : V} {e e' : Expr}
    (he : fr.Settled r v e) (h : c.substitute e = some e') : fr.Settled r v e' := by
  obtain ⟨n, w, rfl, hw, hval, -⟩ := substitute_eq_some h
  obtain ⟨rfl, hr, -⟩ := settled_name.mp he
  exact (hc n w e' (temporary_eq_some.mp hw).2.1 hval).mono (Nat.le_of_lt hr)

theorem settled_substitutePair (hc : fr.Knows c) {r : Nat} {x y : V} {a b : Expr}
    {p : Expr × Expr} (ha : fr.Settled r x a) (hb : fr.Settled r y b)
    (h : c.substitutePair a b = some p) : fr.Settled r x p.1 ∧ fr.Settled r y p.2 := by
  obtain ⟨h₁, h₂⟩ := substitutePair_eq_some h
  constructor
  · rcases h₁ with h₁ | h₁
    · rwa [h₁]
    · exact settled_substitute hc ha h₁
  · rcases h₂ with h₂ | h₂
    · rwa [h₂]
    · exact settled_substitute hc hb h₂

/-! ## One replacement -/

/-- Nobody observes a temporary. -/
def Hides (fr : Frame V) (options : Options) : Prop :=
  ∀ n : String, options.tempPrefix.toList <+: n.toList → fr.hidden n

/-- Only element accesses and binary operations of a plain expression are ever replaced. -/
theorem settled_hook (hc : fr.Knows c) {r : Nat} {v : V} {e e' : Expr}
    (he : fr.Settled r v e) (h : c.pass.onExpr e = some e') : fr.Settled r v e' := by
  obtain ⟨l, k, p, hp, ⟨op, rfl, rfl⟩ | ⟨rfl, rfl⟩ | ⟨f, rfl, -⟩⟩ := onExpr_eq_some h
  · obtain ⟨x, y, hx, hy, hv⟩ := settled_binary.mp he
    obtain ⟨h₁, h₂⟩ := settled_substitutePair hc hx hy hp
    exact settled_binary.mpr ⟨x, y, h₁, h₂, hv⟩
  · obtain ⟨x, y, hx, hy, hv⟩ := settled_index.mp he
    obtain ⟨h₁, h₂⟩ := settled_substitutePair hc hx hy hp
    exact settled_index.mpr ⟨x, y, h₁, h₂, hv⟩
  · exact absurd he.value_eq (by simp [value])

theorem settled_step (hc : fr.Knows c) {r : Nat} :
    ∀ {e e' : Expr} {v : V}, ExprStep c.pass e e' → fr.Settled r v e → fr.Settled r v e'
  | _, _, _, .hook h, he => settled_hook hc he h
  | _, _, _, .binaryLeft h, he => by
      obtain ⟨x, y, hx, hy, hv⟩ := settled_binary.mp he
      exact settled_binary.mpr ⟨x, y, settled_step hc h hx, hy, hv⟩
  | _, _, _, .binaryRight h, he => by
      obtain ⟨x, y, hx, hy, hv⟩ := settled_binary.mp he
      exact settled_binary.mpr ⟨x, y, hx, settled_step hc h hy, hv⟩
  | _, _, _, .indexTable h, he => by
      obtain ⟨x, y, hx, hy, hv⟩ := settled_index.mp he
      exact settled_index.mpr ⟨x, y, settled_step hc h hx, hy, hv⟩
  | _, _, _, .indexKey h, he => by
      obtain ⟨x, y, hx, hy, hv⟩ := settled_index.mp he
      exact settled_index.mpr ⟨x, y, hx, settled_step hc h hy, hv⟩
  | _, _, _, .unary _, he | _, _, _, .member _, he | _, _, _, .callFunc _, he
  | _, _, _, .callArgs _, he | _, _, _, .table _, he | _, _, _, .function _, he =>
      absurd he.value_eq (by simp [value])

/-- The assignment hook promotes an assignment to a temporary, or inlines the assigned name. -/
theorem binds_assign (hc : fr.Knows c) (hhidden : fr.Hides c.options) {id : NodeId}
    {targets values : List Expr} {s' : Stmt} {n : String}
    (hs : fr.Binds (.assign id targets values) n) (h : c.assign id targets values = some s') :
    fr.Binds s' n := by
  obtain ⟨⟨e, hb, he⟩, -⟩ := hs
  obtain ⟨rfl, rfl⟩ := binding?_assign hb
  rcases assign_eq_some h with ⟨hall, rfl⟩ | ⟨t, v, e', ht, hv, he', rfl⟩
  · have hdecl := hall (.name n) List.mem_cons_self
    obtain ⟨m, w, ⟨⟩, hw, -⟩ := declaredBy_eq_true hdecl
    have htemp := (temporary_eq_some.mp hw).1
    exact ⟨⟨e, rfl, he⟩, fun _ _ _ _ => hhidden n htemp⟩
  · cases ht
    cases hv
    exact ⟨⟨e', rfl, settled_substitute hc he he'⟩, fun _ _ _ hc => by simp at hc⟩

theorem binds_step (hc : fr.Knows c) (hhidden : fr.Hides c.options) {s s' : Stmt} {n : String}
    (h : StmtStep c.pass s s') (hs : fr.Binds s n) : fr.Binds s' n := by
  obtain ⟨⟨e, hb, he⟩, hlocal⟩ := id hs
  -- a statement that binds one name has one value, and its target is no slot
  cases h with
  | hook h =>
      cases s with
      | assign id targets values => exact binds_assign hc hhidden hs h
      | declare id names values => simp [Pass.onStmt, Context.pass] at h
      | _ => simp [binding?] at hb
  | declare h =>
      obtain ⟨rfl, rfl⟩ := binding?_declare hb
      cases h with
      | head h => exact ⟨⟨_, rfl, settled_step hc h he⟩, fun _ _ _ _ => hlocal _ _ _ rfl⟩
      | tail h => cases h
  | assignTargets h =>
      obtain ⟨rfl, rfl⟩ := binding?_assign hb
      cases h with
      | head h =>
          -- a name is no slot that a hook answers for
          cases h with
          | hook h => simp [Pass.onExpr] at h
      | tail h => cases h
  | assignValues h =>
      obtain ⟨rfl, rfl⟩ := binding?_assign hb
      cases h with
      | head h => exact ⟨⟨_, rfl, settled_step hc h he⟩, fun _ _ _ hc => by simp at hc⟩
      | tail h => cases h
  | _ => simp [binding?] at hb

/-! ## Whole blocks -/

/-- The statements of the block bind `names`, in the order of their ranks; a name of `all` that is
not among them is hidden and not read. -/
structure Describes (fr : Frame V) (all names : List String) (b : Block) : Prop where
  binds : List.Forall₂ fr.Binds b names
  ordered : names.Pairwise (fr.rank · < fr.rank ·)
  subset : ∀ n ∈ names, n ∈ all
  dropped : ∀ n ∈ all, n ∉ names → fr.hidden n ∧ ¬ fr.live n

/-- Names that are read have reads in the table. -/
def Counts (fr : Frame V) (c : Context) : Prop :=
  ∀ n, fr.live n → ∃ v, c.usage.get? n = some v ∧ 0 < v.reads

theorem not_live_of_isDead (hc : fr.Counts c) {n : String} (h : c.isDead [n] = true) :
    ¬ fr.live n := by
  intro hl
  obtain ⟨v, hv, hr⟩ := hc n hl
  obtain ⟨w, hw, hz⟩ := isDead_eq_true h List.mem_cons_self
  obtain rfl := Option.some.inj (hv.symm.trans hw)
  omega

/-- Dropping dead declarations drops names that are hidden and not read. -/
theorem forall₂_dropDead (hc : fr.Counts c) {b : Block} {names : List String}
    (h : List.Forall₂ fr.Binds b names) :
    ∃ kept, List.Forall₂ fr.Binds (b.filter fun s => !c.isDeadStmt s) kept ∧
      kept.Sublist names ∧ ∀ n ∈ names, n ∉ kept → fr.hidden n ∧ ¬ fr.live n := by
  induction h with
  | nil => exact ⟨[], .nil, .refl _, by simp⟩
  | @cons s n b names hs _ ih =>
      obtain ⟨kept, hkept, hsub, hdrop⟩ := ih
      by_cases hd : c.isDeadStmt s = true
      · -- only a `local` is dropped, and what a `local` declares is hidden
        refine ⟨kept, by simpa [hd] using hkept, hsub.cons n, fun m hm hk => ?_⟩
        rcases List.mem_cons.mp hm with rfl | hm
        · obtain ⟨⟨e, hb, -⟩, hlocal⟩ := hs
          cases s with
          | declare id ns values =>
              obtain ⟨rfl, -⟩ := binding?_declare hb
              exact ⟨hlocal _ _ _ rfl, not_live_of_isDead hc hd⟩
          | _ => simp [Context.isDeadStmt] at hd
        · exact hdrop m hm hk
      · refine ⟨n :: kept, ?_, hsub.cons_cons n, fun m hm hk => ?_⟩
        · rw [List.filter_cons_of_pos (by simpa using hd)]
          exact .cons hs hkept
        · rw [List.mem_cons, not_or] at hk
          exact hdrop m ((List.mem_cons.mp hm).resolve_left hk.1) hk.2

theorem forall₂_listStep (hc : fr.Knows c) (hhidden : fr.Hides c.options) {b b' : Block}
    {names : List String} (h : ListStep (StmtStep c.pass) b b')
    (hb : List.Forall₂ fr.Binds b names) : List.Forall₂ fr.Binds b' names := by
  induction h generalizing names with
  | head h =>
      cases hb with
      | cons hs hrest => exact .cons (binds_step hc hhidden h hs) hrest
  | tail _ ih =>
      cases hb with
      | cons hs hrest => exact .cons hs (ih hrest)

theorem describes_step (hk : fr.Knows c) (hc : fr.Counts c) (hhidden : fr.Hides c.options)
    {all : List String} {b b' : Block} (h : BlockStep c.pass b b')
    (hb : ∃ names, fr.Describes all names b) : ∃ names, fr.Describes all names b' := by
  obtain ⟨names, hb⟩ := hb
  cases h with
  | items h =>
      exact ⟨names, forall₂_listStep hk hhidden h hb.binds, hb.ordered, hb.subset, hb.dropped⟩
  | hook h =>
      obtain rfl := block_eq_some h
      obtain ⟨kept, hkept, hsub, hdrop⟩ := forall₂_dropDead hc hb.binds
      refine ⟨kept, hkept, hb.ordered.sublist hsub, fun n hn => hb.subset n (hsub.subset hn),
        fun n hn hnk => ?_⟩
      by_cases hm : n ∈ names
      · exact hdrop n hm hnk
      · exact hb.dropped n hn hm

end Frame

/-! ## The usage table of a straight-line block -/

open Usage

/-- The events of a plain expression are the reads of the names it mentions. -/
theorem mem_exprEvents (I : Interpretation V) (ρ : String → V) (place : Place) (ev : Event) :
    ∀ (e : Expr) (next : Nat) {v : V}, value I ρ e = some v →
      (ev ∈ (exprEvents place e next).1 ↔ ∃ n, e.mentions n = true ∧ ev = .read n place)
  | .name n, next, v, _ => by simp [exprEvents, Expr.mentions]
  | .number x, next, v, _ => by simp [exprEvents, Expr.mentions]
  | .index t k, next, v, h => by
      obtain ⟨x, y, hx, hy, -⟩ := value_index.mp h
      simp only [exprEvents, List.mem_append, mem_exprEvents I ρ place ev t _ hx,
        mem_exprEvents I ρ place ev k _ hy, Expr.mentions, Bool.or_eq_true, or_and_right, exists_or]
  | .binary op l r, next, v, h => by
      obtain ⟨x, y, hx, hy, -⟩ := value_binary.mp h
      simp only [exprEvents, List.mem_append, mem_exprEvents I ρ place ev l _ hx,
        mem_exprEvents I ρ place ev r _ hy, Expr.mentions, Bool.or_eq_true, or_and_right, exists_or]
  | .nil, _, _, h | .bool _, _, _, h | .string _, _, _, h | .vararg, _, _, h
  | .unary .., _, _, h | .member .., _, _, h | .call .., _, _, h | .table _, _, _, h
  | .function .., _, _, h => by simp [value] at h

/-- The events of a single binding: its reads, then the binding. -/
theorem exists_stmtEvents {s : Stmt} {n : String} {e : Expr} (h : binding? s = some (n, e))
    (place : Place) (next : Nat) :
    ∃ ev id, (stmtEvents place s next).1 = (exprEvents place e next).1 ++ [ev] ∧
      ev.name = n ∧ ev.binding? = some (place, id, some e) := by
  cases s with
  | declare id names values =>
      obtain ⟨rfl, rfl⟩ := binding?_declare h
      exact ⟨.declare n place id (some e), id,
        by simp [stmtEvents, exprsEvents, paired], rfl, rfl⟩
  | assign id targets values =>
      obtain ⟨rfl, rfl⟩ := binding?_assign h
      exact ⟨.assign n place id (some e), id,
        by simp [stmtEvents, exprsEvents, targetsEvents], rfl, rfl⟩
  | _ => simp [binding?] at h

theorem exists_of_mem_stmtsEvents {place : Place} {ev : Event} {b : Block} {next : Nat}
    (h : ev ∈ (stmtsEvents place b next).1) :
    ∃ s ∈ b, ∃ next', ev ∈ (stmtEvents place s next').1 := by
  induction b generalizing next with
  | nil => simp [stmtsEvents] at h
  | cons s b ih =>
      simp only [stmtsEvents, List.mem_append] at h
      rcases h with h | h
      · exact ⟨s, by simp, next, h⟩
      · obtain ⟨s', hs', hev⟩ := ih h
        exact ⟨s', by simp [hs'], hev⟩

theorem exists_stmtEvents_subset {b : Block} {s : Stmt} (h : s ∈ b) (place : Place) (next : Nat) :
    ∃ next', ∀ ev ∈ (stmtEvents place s next').1, ev ∈ (stmtsEvents place b next).1 := by
  induction b generalizing next with
  | nil => cases h
  | cons s' b ih =>
      simp only [stmtsEvents, List.mem_append]
      rcases List.mem_cons.mp h with rfl | h
      · exact ⟨next, fun ev hev => .inl hev⟩
      · obtain ⟨next', hsub⟩ := ih h (stmtEvents place s' next).2
        exact ⟨next', fun ev hev => .inr (hsub ev hev)⟩

/-- A statement of the block reads the name. -/
def ReadIn (b : Block) (n : String) : Prop :=
  ∃ s ∈ b, ∃ m e, binding? s = some (m, e) ∧ e.mentions n = true

namespace Frame

variable {fr : Frame V} {all names : List String} {b : Block}

theorem exists_binds (h : List.Forall₂ fr.Binds b names) {s : Stmt} (hs : s ∈ b) :
    ∃ n ∈ names, fr.Binds s n := by
  induction h with
  | nil => cases hs
  | cons hb _ ih =>
      rcases List.mem_cons.mp hs with rfl | hs
      · exact ⟨_, by simp, hb⟩
      · obtain ⟨n, hn, hb'⟩ := ih hs
        exact ⟨n, by simp [hn], hb'⟩

/-- The usage table of a described block is true of the final environment. -/
theorem knows_usage (h : List.Forall₂ fr.Binds b names) (options : Options) :
    fr.Knows ⟨options, b.usage⟩ := by
  intro n v e hv he
  obtain rfl := eq_track_of_get? hv
  -- a value comes with a declaration, and that with the event of a binding
  have hd : ∃ d, (track n (events b)).info.declaration = some d := by
    by_contra hno
    rw [← Option.ne_none_iff_exists', not_not] at hno
    rw [(coherent_track n (events b)).value_none hno] at he
    contradiction
  obtain ⟨d, hd⟩ := hd
  obtain ⟨ev, hev, place, hname, hbind, -⟩ := exists_first_binding rfl hd
  rw [show (trackFrom n .fresh (events b)).info.value = some e from he] at hbind
  obtain ⟨s, hs, next, hmem⟩ := exists_of_mem_stmtsEvents hev
  obtain ⟨m, -, hsm⟩ := exists_binds h hs
  obtain ⟨e', hb, hset⟩ := hsm.equation
  obtain ⟨ev', id, hevents, hname', hbind'⟩ := exists_stmtEvents hb [0] next
  rw [hevents, List.mem_append, List.mem_singleton] at hmem
  rcases hmem with hread | rfl
  · obtain ⟨k, -, rfl⟩ := (mem_exprEvents _ _ _ _ _ _ hset.value_eq).mp hread
    simp [Event.binding?] at hbind
  · obtain rfl : m = n := hname'.symm.trans hname
    obtain ⟨-, -, rfl⟩ : place = [0] ∧ d = id ∧ e = e' := by
      simpa using hbind.symm.trans hbind'
    exact hset

/-- The usage table of a described block counts the names that are read in it. -/
theorem counts_usage (h : List.Forall₂ fr.Binds b names) (hl : ∀ n, fr.live n → ReadIn b n)
    (options : Options) : fr.Counts ⟨options, b.usage⟩ := by
  intro n hn
  obtain ⟨s, hs, m, e, hb, hm⟩ := hl n hn
  obtain ⟨k, -, hk⟩ := exists_binds h hs
  obtain ⟨e', hb', hset⟩ := hk.equation
  obtain ⟨rfl, rfl⟩ : m = k ∧ e = e' := by simpa using hb.symm.trans hb'
  obtain ⟨next, hsub⟩ := exists_stmtEvents_subset hs [0] 1
  obtain ⟨ev, id, hevents, -⟩ := exists_stmtEvents hb [0] next
  have hread : Event.read n [0] ∈ (exprEvents [0] e next).1 :=
    (mem_exprEvents _ _ _ _ _ _ hset.value_eq).mpr ⟨n, hm, rfl⟩
  have hmem : Event.read n [0] ∈ events b :=
    hsub _ (by rw [hevents]; exact List.mem_append_left _ hread)
  exact reads_pos_of_mem hmem

/-! ## Walks, runs and execution -/

/-- The frame whose live names are those that a block reads. -/
def reading (fr : Frame V) (b : Block) : Frame V := { fr with live := ReadIn b }

/-- A walk over a described block, prepared by its usage table, leaves a described block. -/
theorem describes_walk {options : Options} (hhidden : fr.Hides options)
    (h : ∃ names, (fr.reading b).Describes all names b) {b' : Block}
    (hb' : b' = (((Temporaries.stage options).prepare b).walk b).1) :
    ∃ names, (fr.reading b').Describes all names b' := by
  obtain ⟨names, hd⟩ := h
  have hk := knows_usage hd.binds options
  have hc := counts_usage hd.binds (fun _ hn => hn) options
  have hwalk : ∃ names', (fr.reading b).Describes all names' b' := by
    rw [hb']
    exact Pass.walk_preserves (fun _ _ hs => describes_step hk hc hhidden hs) ⟨names, hd⟩
  obtain ⟨names', hd'⟩ := hwalk
  have hreads : ∀ n, ReadIn b' n → ReadIn b n := by
    rintro n ⟨s, hs, m, e, hb, hm⟩
    obtain ⟨k, -, hk⟩ := exists_binds hd'.binds hs
    obtain ⟨e', hbe', hset⟩ := hk.equation
    obtain ⟨rfl, rfl⟩ : m = k ∧ e = e' := by simpa using hb.symm.trans hbe'
    exact (hset.reads n hm).2
  -- the description is in terms of the reads of `b`; the reads of `b'` are fewer
  refine ⟨names', ?_, hd'.ordered, hd'.subset, ?_⟩
  · have hmem : List.Forall₂ (fun s n => s ∈ b' ∧ (fr.reading b).Binds s n) b' names' :=
      (List.forall₂_and_left _ _).mpr ⟨fun _ hs => hs, hd'.binds⟩
    refine hmem.imp fun s n ⟨hs, hbs⟩ => ⟨?_, hbs.isLocal⟩
    obtain ⟨e, hb, hset⟩ := hbs.equation
    exact ⟨e, hb, hset.value_eq, fun m hm => ⟨(hset.reads m hm).1, s, hs, n, e, hb, hm⟩⟩
  · intro n hn hnn
    obtain ⟨hhid, hlive⟩ := hd'.dropped n hn hnn
    exact ⟨hhid, fun hr => hlive (hreads n hr)⟩

/-- However many rounds of walks are made. -/
theorem describes_run {options : Options} (limit : Nat) (hhidden : fr.Hides options)
    (h : ∃ names, (fr.reading b).Describes all names b) {b' : Block}
    (hb' : b' = ((Pipeline.mk [Temporaries.stage options] limit).run b).1) :
    ∃ names, (fr.reading b').Describes all names b' := by
  rw [hb']
  refine Pipeline.run_preserves (P := fun b' => ∃ names, (fr.reading b').Describes all names b')
    ⟨[Temporaries.stage options], limit⟩ ?_ h
  intro r hr b' hd
  obtain rfl := List.mem_singleton.mp hr
  exact describes_walk hhidden hd rfl

/-- Executing a described block gives the names it binds their final values, and no other name a
new one. -/
theorem exec_of_binds (h : List.Forall₂ fr.Binds b names)
    (hord : names.Pairwise (fr.rank · < fr.rank ·)) (ρ : String → V)
    (hρ : ∀ n, fr.live n → n ∉ names → ρ n = fr.final n) :
    ∃ σ, exec fr.meaning ρ b = some σ ∧ (∀ n ∈ names, σ n = fr.final n) ∧
      ∀ n, n ∉ names → σ n = ρ n := by
  -- What a statement reads is of a lower rank, so not bound from here on, and final already.
  induction h generalizing ρ with
  | nil => exact ⟨ρ, rfl, by simp, fun _ _ => rfl⟩
  | @cons s n b names hs _ ih =>
      obtain ⟨e, hb, hset⟩ := hs.equation
      rw [List.pairwise_cons] at hord
      have hv : value fr.meaning ρ e = some (fr.final n) := by
        rw [← hset.value_eq]
        apply value_congr
        intro m hm
        obtain ⟨hrank, hlive⟩ := hset.reads m hm
        apply hρ m hlive
        intro hmem
        rcases List.mem_cons.mp hmem with rfl | hmem
        · exact Nat.lt_irrefl _ hrank
        · exact Nat.lt_asymm hrank (hord.1 m hmem)
      have hρ' : ∀ m, fr.live m → m ∉ names →
          Function.update ρ n (fr.final n) m = fr.final m := by
        intro m hm hmn
        by_cases hmeq : m = n
        · rw [hmeq, Function.update_self]
        · rw [Function.update_of_ne hmeq]
          exact hρ m hm (by simp [hmeq, hmn])
      obtain ⟨σ, hσ, hin, hout⟩ := ih hord.2 _ hρ'
      refine ⟨σ, by simp [exec, hb, hv, hσ], ?_, ?_⟩
      · intro m hm
        by_cases hmn : m ∈ names
        · exact hin m hmn
        · obtain rfl := (List.mem_cons.mp hm).resolve_right hmn
          rw [hout m hmn, Function.update_self]
      · intro m hm
        rw [List.mem_cons, not_or] at hm
        rw [hout m hm.2, Function.update_of_ne hm.1]

end Frame

theorem forall₂_bound {R : Stmt → String → Prop} {b : Block}
    (h : ∀ s ∈ b, ∃ n e, binding? s = some (n, e) ∧ R s n) : List.Forall₂ R b (bound b) := by
  induction b with
  | nil => exact .nil
  | cons s b ih =>
      obtain ⟨n, e, hs, hR⟩ := h s (by simp)
      rw [bound_cons hs]
      exact .cons hR (ih fun s' hs' => h s' (by simp [hs']))

theorem exists_binding_of_mem {b : Block} (h : SingleAssignment b) :
    ∀ s ∈ b, ∃ n e, binding? s = some (n, e) := by
  induction b with
  | nil => simp
  | cons s rest ih =>
      obtain ⟨⟨n, e, hs, -⟩, hrest⟩ := h
      intro s' hs'
      rcases List.mem_cons.mp hs' with rfl | hmem
      · exact ⟨n, e, hs⟩
      · exact ih hrest s' hmem

/-- Collapsing temporaries keeps the final value of every name that is neither a temporary nor
declared by a `local`, for every interpretation, every initial environment and every number of
rounds. -/
theorem exec_collapsed (I : Interpretation V) (options : Options) (limit : Nat)
    (ρ : String → V) {b : Block} (h : SingleAssignment b) :
    ∃ σ σ', exec I ρ b = some σ ∧
      exec I ρ ((Pipeline.mk [Temporaries.stage options] limit).run b).1 = some σ' ∧
      ∀ n : String, ¬ options.tempPrefix.toList <+: n.toList → ¬ IsLocal b n → σ' n = σ n := by
  obtain ⟨σ, hσ, hframe, heqs⟩ := exists_exec I h ρ
  obtain ⟨rank, hord, -, hlow⟩ := exists_rank h
  -- which names are live is told by `reading`, for each block anew
  let fr : Frame V :=
    ⟨I, σ, rank, fun _ => True, fun n => options.tempPrefix.toList <+: n.toList ∨ IsLocal b n⟩
  have hstart : ∃ names, (fr.reading b).Describes (bound b) names b := by
    refine ⟨bound b, forall₂_bound ?_, hord, fun _ hn => hn, fun n hn hno => absurd hn hno⟩
    intro s hs
    obtain ⟨n, e, hb⟩ := exists_binding_of_mem h s hs
    refine ⟨n, e, hb, ⟨e, hb, heqs s hs n e hb, fun m hm => ⟨hlow s hs n e hb m hm, ?_⟩⟩, ?_⟩
    · exact ⟨s, hs, n, e, hb, hm⟩
    · rintro id names values rfl
      obtain ⟨rfl, rfl⟩ := binding?_declare hb
      exact .inr ⟨id, [n], [e], hs, by simp⟩
  have hhidden : fr.Hides options := fun n hn => Or.inl hn
  obtain ⟨names, hd⟩ := Frame.describes_run limit hhidden hstart rfl
  have hρ : ∀ n, n ∉ bound b → ρ n = σ n := fun n hn => (hframe n hn).symm
  obtain ⟨σ', hσ', hin, hout⟩ := Frame.exec_of_binds hd.binds hd.ordered ρ fun n hlive hn =>
    hρ n fun hmem => (hd.dropped n hmem hn).2 hlive
  refine ⟨σ, σ', hσ, hσ', ?_⟩
  intro n htemp hlocal
  by_cases hn : n ∈ names
  · exact hin n hn
  · -- a name that is not bound any more but was before has been dropped, so it is hidden
    have hunbound : n ∉ bound b := by
      intro hmem
      rcases (hd.dropped n hmem hn).1 with h | h
      · exact htemp h
      · exact hlocal h
    rw [hout n hn]
    exact hρ n hunbound

/-- `_1 = t[k]`, `local _2 = _1`, `local y = _2 + i`, `x = y * _2`. -/
def chain : Block :=
  [.assign 1 [.name "_1"] [.index (.name "t") (.name "k")],
   .declare 2 ["_2"] [.name "_1"],
   .declare 3 ["y"] [.binary .add (.name "_2") (.name "i")],
   .assign 4 [.name "x"] [.binary .mul (.name "y") (.name "_2")]]

theorem exec_collapsed_chain :
    SingleAssignment chain ∧ ¬ "_".toList <+: "x".toList ∧ ¬ IsLocal chain "x" ∧
      ∃ σ σ' : String → Nat,
        exec ⟨fun x => x.fraction, fun t k => 10 * t + k, fun _ l r => l + r⟩ String.length chain
          = some σ ∧
        exec ⟨fun x => x.fraction, fun t k => 10 * t + k, fun _ l r => l + r⟩ String.length
          ((Pipeline.mk [Temporaries.stage .standard] 64).run chain).1 = some σ' ∧
        σ' "x" = σ "x" := by
  have hsingle : SingleAssignment chain := by
    simp [SingleAssignment, chain, binding?, bound, isPlain, Expr.mentions]
  have htemp : ¬ "_".toList <+: "x".toList := by decide
  have hlocal : ¬ IsLocal chain "x" := by
    rintro ⟨id, names, values, hmem, hx⟩
    simp only [chain, List.mem_cons, Stmt.declare.injEq, reduceCtorEq, List.not_mem_nil,
      false_or, or_false] at hmem
    rcases hmem with ⟨-, rfl, -⟩ | ⟨-, rfl, -⟩ <;> simp at hx
  obtain ⟨σ, σ', hσ, hσ', hkeep⟩ := exec_collapsed
    ⟨fun x => x.fraction, fun t k => 10 * t + k, fun _ l r => l + r⟩ .standard 64 String.length
    hsingle
  exact ⟨hsingle, htemp, hlocal, σ, σ', hσ, hσ', hkeep "x" htemp hlocal⟩

end StraightLine

end Devirt
