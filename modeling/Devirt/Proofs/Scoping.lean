import Devirt.Proofs.UsageTable
import Mathlib.Tactic

set_option autoImplicit false

/-! # What is in scope where

A name is in scope of a binding statement after that statement, in the same block and in the
blocks nested below.  The *scope* of a place lists the binding statements that it is in scope of,
the last one first; an `until` condition belongs to the body of its loop.

The *occurrences* of a tree are its reads and its binding statements in textual order, each with
the scope of its place.  A block is *scoped* if every read of a name that some `local` declares
is in scope of such a `local` (`Scoped`), and its statements are *distinct* if no two have one
identity (`Distinct`). -/

namespace Devirt

namespace Scoping

/-! ## Occurrences -/

/-- What a place sees of a binding statement before it. -/
structure Binding where
  id : NodeId
  /-- A `local` statement rather than an assignment. -/
  isLocal : Bool
  names : List String

abbrev Scope := List Binding

inductive Occurrence where
  | read (name : String) (scope : Scope)
  | bind (binding : Binding) (values : List Expr) (scope : Scope)

/-- What a statement binds in the rest of its block. -/
def binding? : Stmt → Option Binding
  | .declare id names _ => some ⟨id, true, names⟩
  | .assign id targets _ => some ⟨id, false, targets.filterMap Expr.name?⟩
  | _ => none

/-- The scope after a statement. -/
def after (Γ : Scope) (s : Stmt) : Scope := (binding? s).toList ++ Γ

/-- The scope at the end of a block. -/
def afterAll (Γ : Scope) (b : Block) : Scope := b.foldl after Γ

mutual

/-- The occurrences in an expression whose place has the scope `Γ`. -/
def exprOccs (Γ : Scope) : Expr → List Occurrence
  | .nil | .bool _ | .number _ | .string _ | .vararg => []
  | .name n => [.read n Γ]
  | .binary _ l r => exprOccs Γ l ++ exprOccs Γ r
  | .unary _ e => exprOccs Γ e
  | .member o _ => exprOccs Γ o
  | .index t k => exprOccs Γ t ++ exprOccs Γ k
  | .call f args => exprOccs Γ f ++ exprsOccs Γ args
  | .table entries => entriesOccs Γ entries
  | .function _ _ body => stmtsOccs Γ body

def exprsOccs (Γ : Scope) : List Expr → List Occurrence
  | [] => []
  | e :: es => exprOccs Γ e ++ exprsOccs Γ es

def entriesOccs (Γ : Scope) : List Entry → List Occurrence
  | [] => []
  | .positional v :: es => exprOccs Γ v ++ entriesOccs Γ es
  | .keyed k v :: es => exprOccs Γ k ++ exprOccs Γ v ++ entriesOccs Γ es

/-- Of a target that is no name the parts are read. -/
def targetsOccs (Γ : Scope) : List Expr → List Occurrence
  | [] => []
  | e :: es => (if e.name?.isSome then [] else exprOccs Γ e) ++ targetsOccs Γ es

/-- The targets of an assignment are in scope of the assignment itself, which binds them from left
to right. -/
def stmtOccs (Γ : Scope) : Stmt → List Occurrence
  | .declare id names values => .bind ⟨id, true, names⟩ values Γ :: exprsOccs Γ values
  | .assign id targets values =>
    let binding : Binding := ⟨id, false, targets.filterMap Expr.name?⟩
    .bind binding values Γ :: (exprsOccs Γ values ++ targetsOccs (binding :: Γ) targets)
  | .call f args => exprOccs Γ f ++ exprsOccs Γ args
  | .scope body => stmtsOccs Γ body
  | .branch clauses none => clausesOccs Γ clauses
  | .branch clauses (some body) => clausesOccs Γ clauses ++ stmtsOccs Γ body
  | .whileLoop cond body => exprOccs Γ cond ++ stmtsOccs Γ body
  | .repeatLoop body cond => stmtsOccs Γ body ++ exprOccs (afterAll Γ body) cond
  | .numericFor _ start limit none body =>
    exprOccs Γ start ++ exprOccs Γ limit ++ stmtsOccs Γ body
  | .numericFor _ start limit (some step) body =>
    exprOccs Γ start ++ exprOccs Γ limit ++ exprOccs Γ step ++ stmtsOccs Γ body
  | .genericFor _ exprs body => exprsOccs Γ exprs ++ stmtsOccs Γ body
  | .ret values => exprsOccs Γ values
  | .brk => []

def stmtsOccs (Γ : Scope) : List Stmt → List Occurrence
  | [] => []
  | s :: ss => stmtOccs Γ s ++ stmtsOccs (after Γ s) ss

def clausesOccs (Γ : Scope) : List Clause → List Occurrence
  | [] => []
  | .mk cond body :: cs => exprOccs Γ cond ++ stmtsOccs Γ body ++ clausesOccs Γ cs

end

/-- The occurrences in a block that stands alone. -/
def occurrences (b : Block) : List Occurrence := stmtsOccs [] b

/-- The identity of a binding statement. -/
def Occurrence.id? : Occurrence → Option NodeId
  | read .. => none
  | bind β _ _ => some β.id

/-- A `local` declares the name. -/
def IsLocal (b : Block) (n : String) : Prop :=
  ∃ β values Γ, .bind β values Γ ∈ occurrences b ∧ β.isLocal ∧ n ∈ β.names

/-- Every read of such a name is in scope of a `local` that declares it. -/
def Covered (M : String → Prop) (b : Block) : Prop :=
  ∀ n Γ, .read n Γ ∈ occurrences b → M n → ∃ β ∈ Γ, β.isLocal ∧ n ∈ β.names

/-- Every read of a name that some `local` declares is in scope of such a `local`. -/
def Scoped (b : Block) : Prop := Covered (IsLocal b) b

/-- No two binding statements have one identity. -/
def Distinct (b : Block) : Prop := ((occurrences b).filterMap Occurrence.id?).Nodup

/-! ## Larger scopes -/

/-- Whatever live name is in scope of a statement in `Γ` is so in `Δ`, and stays local. -/
def Within (live : String → Prop) (Γ Δ : Scope) : Prop :=
  ∀ β ∈ Γ, ∀ n ∈ β.names, live n →
    ∃ β' ∈ Δ, β'.id = β.id ∧ n ∈ β'.names ∧ (β.isLocal → β'.isLocal)

namespace Within

variable {live : String → Prop} {Γ Δ : Scope}

theorem refl (Γ : Scope) : Within live Γ Γ := fun β hβ _ hn _ => ⟨β, hβ, rfl, hn, id⟩

theorem trans {Θ : Scope} (h : Within live Γ Δ) (h' : Within live Δ Θ) : Within live Γ Θ := by
  intro β hβ n hn hlive
  obtain ⟨γ, hγ, hid, hn, hlocal⟩ := h β hβ n hn hlive
  obtain ⟨δ, hδ, hid', hn, hlocal'⟩ := h' γ hγ n hn hlive
  exact ⟨δ, hδ, hid'.trans hid, hn, fun h => hlocal' (hlocal h)⟩

theorem cons (h : Within live Γ Δ) (β : Binding) : Within live (β :: Γ) (β :: Δ) := by
  intro γ hγ n hn hlive
  rcases List.mem_cons.mp hγ with rfl | hγ
  · exact ⟨γ, by simp, rfl, hn, id⟩
  · obtain ⟨β', hβ', hrest⟩ := h γ hγ n hn hlive
    exact ⟨β', by simp [hβ'], hrest⟩

theorem after (h : Within live Γ Δ) (s : Stmt) : Within live (after Γ s) (after Δ s) := by
  unfold Scoping.after
  cases binding? s with
  | none => exact h
  | some β => exact h.cons β

theorem afterAll (h : Within live Γ Δ) (b : Block) :
    Within live (afterAll Γ b) (afterAll Δ b) := by
  induction b generalizing Γ Δ with
  | nil => exact h
  | cons s b ih => exact ih (h.after s)

end Within

/-- The same occurrence in a larger scope. -/
inductive Below (live : String → Prop) : Occurrence → Occurrence → Prop where
  | read (n : String) {Γ Δ : Scope} : Within live Γ Δ → Below live (.read n Γ) (.read n Δ)
  | bind (β : Binding) (values : List Expr) {Γ Δ : Scope} : Within live Γ Δ →
      Below live (.bind β values Γ) (.bind β values Δ)

/-! ## Where a scope comes from -/

/-- The scope consists of what was there before and of statements that occur. -/
def From (Γ : Scope) (xs : List Occurrence) (Δ : Scope) : Prop :=
  ∀ β ∈ Δ, β ∈ Γ ∨ ∃ values Δ', .bind β values Δ' ∈ xs

theorem mem_exprsOccs {Γ : Scope} {es : List Expr} {e : Expr} {i : Occurrence} (he : e ∈ es)
    (hi : i ∈ exprOccs Γ e) : i ∈ exprsOccs Γ es := by
  induction es with
  | nil => contradiction
  | cons e' es ih =>
      rw [exprsOccs, List.mem_append]
      rcases List.mem_cons.mp he with rfl | he
      · exact .inl hi
      · exact .inr (ih he)

/-- The occurrences of a whole tree with the scope `Γ`: scopes inside come from the tree, and so do
the occurrences in the values of its statements. -/
structure Closed (Γ : Scope) (xs : List Occurrence) : Prop where
  origin : ∀ n Δ, .read n Δ ∈ xs → From Γ xs Δ
  values : ∀ β values Δ, .bind β values Δ ∈ xs → ∀ e ∈ values, ∀ i ∈ exprOccs Δ e, i ∈ xs

theorem From.mono {Γ Δ : Scope} {xs ys : List Occurrence} (h : From Γ xs Δ)
    (hsub : ∀ i ∈ xs, i ∈ ys) : From Γ ys Δ := by
  intro β hβ
  rcases h β hβ with hΓ | ⟨values, Δ', hmem⟩
  · exact .inl hΓ
  · exact .inr ⟨values, Δ', hsub _ hmem⟩

namespace Closed

variable {Γ : Scope}

theorem nil : Closed Γ [] := ⟨by simp, by simp⟩

theorem seq {Δ : Scope} {xs ys : List Occurrence} (hx : Closed Γ xs) (hy : Closed Δ ys)
    (hΔ : From Γ xs Δ) : Closed Γ (xs ++ ys) := by
  have hleft : ∀ i ∈ xs, i ∈ xs ++ ys := fun i hi => List.mem_append.mpr (.inl hi)
  have hright : ∀ i ∈ ys, i ∈ xs ++ ys := fun i hi => List.mem_append.mpr (.inr hi)
  constructor
  · intro n Δ' hmem
    rcases List.mem_append.mp hmem with hmem | hmem
    · exact (hx.origin n Δ' hmem).mono hleft
    · intro β hβ
      rcases hy.origin n Δ' hmem β hβ with hβ | ⟨values, Δ'', hbind⟩
      · exact hΔ.mono hleft β hβ
      · exact .inr ⟨values, Δ'', hright _ hbind⟩
  · intro β values Δ' hmem e he i hi
    rcases List.mem_append.mp hmem with hmem | hmem
    · exact hleft i (hx.values β values Δ' hmem e he i hi)
    · exact hright i (hy.values β values Δ' hmem e he i hi)

/-- A binding statement: what its values hold, and what it is followed by inside. -/
theorem bind {β : Binding} {values : List Expr} {ys : List Occurrence}
    (hv : Closed Γ (exprsOccs Γ values)) (hy : Closed (β :: Γ) ys) :
    Closed Γ (.bind β values Γ :: (exprsOccs Γ values ++ ys)) := by
  have hhead : Closed Γ (.bind β values Γ :: exprsOccs Γ values) := by
    constructor
    · intro n Δ hmem
      have hmem : .read n Δ ∈ exprsOccs Γ values := by simpa using hmem
      exact (hv.origin n Δ hmem).mono fun i hi => List.mem_cons_of_mem _ hi
    · intro γ vs Δ hmem e he i hi
      rcases List.mem_cons.mp hmem with heq | hmem
      · cases heq
        exact List.mem_cons_of_mem _ (mem_exprsOccs he hi)
      · exact List.mem_cons_of_mem _ (hv.values γ vs Δ hmem e he i hi)
  -- what follows inside sees the statement itself
  refine hhead.seq hy ?_
  intro γ hγ
  rcases List.mem_cons.mp hγ with rfl | hγ
  · exact .inr ⟨values, Γ, by simp⟩
  · exact .inl hγ

/-- Two trees in one scope. -/
theorem append {xs ys : List Occurrence} (hx : Closed Γ xs) (hy : Closed Γ ys) :
    Closed Γ (xs ++ ys) :=
  hx.seq hy fun _ hβ => .inl hβ

end Closed

theorem from_after (Γ : Scope) (s : Stmt) : From Γ (stmtOccs Γ s) (after Γ s) := by
  cases s with
  | declare id names values =>
      rintro β (_ | ⟨_, hβ⟩)
      · exact .inr ⟨values, Γ, by simp [stmtOccs]⟩
      · exact .inl hβ
  | assign id targets values =>
      rintro β (_ | ⟨_, hβ⟩)
      · exact .inr ⟨values, Γ, by simp [stmtOccs]⟩
      · exact .inl hβ
  | _ => exact fun β hβ => .inl hβ

theorem from_afterAll (Γ : Scope) (b : Block) : From Γ (stmtsOccs Γ b) (afterAll Γ b) := by
  induction b generalizing Γ with
  | nil => exact fun β hβ => .inl hβ
  | cons s b ih =>
      intro β hβ
      rcases ih (after Γ s) β hβ with hβ | ⟨values, Δ, hmem⟩
      · exact (from_after Γ s).mono (fun i hi => List.mem_append.mpr (.inl hi)) β hβ
      · exact .inr ⟨values, Δ, List.mem_append.mpr (.inr hmem)⟩

-- Trees next to each other are appended; after a statement or a body the scope is what it leaves,
-- which comes from its own occurrences.
mutual

theorem closed_expr (Γ : Scope) : (e : Expr) → Closed Γ (exprOccs Γ e)
  | .nil | .bool _ | .number _ | .string _ | .vararg => .nil
  | .name n => ⟨by rintro m Δ (_ | ⟨_, ⟨⟩⟩); exact fun _ hβ => .inl hβ, by simp [exprOccs]⟩
  | .binary _ l k => (closed_expr Γ l).append (closed_expr Γ k)
  | .unary _ e => closed_expr Γ e
  | .member o _ => closed_expr Γ o
  | .index t k => (closed_expr Γ t).append (closed_expr Γ k)
  | .call f args => (closed_expr Γ f).append (closed_exprs Γ args)
  | .table entries => closed_entries Γ entries
  | .function _ _ body => closed_stmts Γ body

theorem closed_exprs (Γ : Scope) : (es : List Expr) → Closed Γ (exprsOccs Γ es)
  | [] => .nil
  | e :: es => (closed_expr Γ e).append (closed_exprs Γ es)

theorem closed_entries (Γ : Scope) : (es : List Entry) → Closed Γ (entriesOccs Γ es)
  | [] => .nil
  | .positional v :: es => (closed_expr Γ v).append (closed_entries Γ es)
  | .keyed k v :: es =>
      ((closed_expr Γ k).append (closed_expr Γ v)).append (closed_entries Γ es)

theorem closed_targets (Γ : Scope) : (es : List Expr) → Closed Γ (targetsOccs Γ es)
  | [] => .nil
  | e :: es => by
      refine Closed.append ?_ (closed_targets Γ es)
      split
      · exact .nil
      · exact closed_expr Γ e

theorem closed_stmt (Γ : Scope) : (s : Stmt) → Closed Γ (stmtOccs Γ s)
  | .declare id names values => by
      have h : Closed Γ (.bind ⟨id, true, names⟩ values Γ :: (exprsOccs Γ values ++ [])) :=
        .bind (closed_exprs Γ values) .nil
      rwa [List.append_nil] at h
  | .assign _ targets values => .bind (closed_exprs Γ values) (closed_targets _ targets)
  | .call f args => (closed_expr Γ f).append (closed_exprs Γ args)
  | .scope body => closed_stmts Γ body
  | .branch clauses none => closed_clauses Γ clauses
  | .branch clauses (some body) => (closed_clauses Γ clauses).append (closed_stmts Γ body)
  | .whileLoop cond body => (closed_expr Γ cond).append (closed_stmts Γ body)
  | .repeatLoop body cond =>
      (closed_stmts Γ body).seq (closed_expr _ cond) (from_afterAll Γ body)
  | .numericFor _ start limit none body =>
      ((closed_expr Γ start).append (closed_expr Γ limit)).append (closed_stmts Γ body)
  | .numericFor _ start limit (some step) body =>
      (((closed_expr Γ start).append (closed_expr Γ limit)).append (closed_expr Γ step)).append
        (closed_stmts Γ body)
  | .genericFor _ exprs body => (closed_exprs Γ exprs).append (closed_stmts Γ body)
  | .ret values => closed_exprs Γ values
  | .brk => .nil

theorem closed_stmts (Γ : Scope) : (b : List Stmt) → Closed Γ (stmtsOccs Γ b)
  | [] => .nil
  | s :: b => (closed_stmt Γ s).seq (closed_stmts _ b) (from_after Γ s)

theorem closed_clauses (Γ : Scope) : (cs : List Clause) → Closed Γ (clausesOccs Γ cs)
  | [] => .nil
  | .mk cond body :: cs =>
      ((closed_expr Γ cond).append (closed_stmts Γ body)).append (closed_clauses Γ cs)

end

/-! ## Expressions that only read -/

/-- Every occurrence is a read in this scope. -/
def OnlyReads (Γ : Scope) (xs : List Occurrence) : Prop := ∀ i ∈ xs, ∃ n, i = .read n Γ

theorem OnlyReads.append {Γ : Scope} {xs ys : List Occurrence} (hx : OnlyReads Γ xs)
    (hy : OnlyReads Γ ys) : OnlyReads Γ (xs ++ ys) := by
  intro i hi
  rcases List.mem_append.mp hi with hi | hi
  · exact hx i hi
  · exact hy i hi

mutual

/-- What surely does not mention a name holds no function, hence no statement. -/
theorem onlyReads_expr (Γ : Scope) {n : String} : (e : Expr) → e.mentions n = false →
    OnlyReads Γ (exprOccs Γ e)
  | .nil, _ | .bool _, _ | .number _, _ | .string _, _ | .vararg, _ => by simp [OnlyReads, exprOccs]
  | .name m, _ => by simp [OnlyReads, exprOccs]
  | .binary _ l k, h => by
      rw [Expr.mentions, Bool.or_eq_false_iff] at h
      exact (onlyReads_expr Γ l h.1).append (onlyReads_expr Γ k h.2)
  | .unary _ e, h => onlyReads_expr Γ e h
  | .member o _, h => onlyReads_expr Γ o h
  | .index t k, h => by
      rw [Expr.mentions, Bool.or_eq_false_iff] at h
      exact (onlyReads_expr Γ t h.1).append (onlyReads_expr Γ k h.2)
  | .call f args, h => by
      rw [Expr.mentions, Bool.or_eq_false_iff] at h
      exact (onlyReads_expr Γ f h.1).append (onlyReads_exprs Γ args h.2)
  | .table entries, h => onlyReads_entries Γ entries h
  | .function .., h => nomatch h

theorem onlyReads_exprs (Γ : Scope) {n : String} : (es : List Expr) →
    Expr.anyMentions n es = false → OnlyReads Γ (exprsOccs Γ es)
  | [], _ => by simp [OnlyReads, exprsOccs]
  | e :: es, h => by
      rw [Expr.anyMentions, Bool.or_eq_false_iff] at h
      exact (onlyReads_expr Γ e h.1).append (onlyReads_exprs Γ es h.2)

theorem onlyReads_entries (Γ : Scope) {n : String} : (es : List Entry) →
    Expr.anyEntryMentions n es = false → OnlyReads Γ (entriesOccs Γ es)
  | [], _ => by simp [OnlyReads, entriesOccs]
  | .positional v :: es, h => by
      rw [Expr.anyEntryMentions, Bool.or_eq_false_iff] at h
      exact (onlyReads_expr Γ v h.1).append (onlyReads_entries Γ es h.2)
  | .keyed k v :: es, h => by
      rw [Expr.anyEntryMentions, Bool.or_eq_false_iff, Bool.or_eq_false_iff] at h
      exact ((onlyReads_expr Γ k h.1.1).append (onlyReads_expr Γ v h.1.2)).append
        (onlyReads_entries Γ es h.2)

end

/-! ## Distinct statements -/

theorem eq_of_nodup_filterMap {α β : Type} {f : α → Option β} {l : List α}
    (h : (l.filterMap f).Nodup) {x y : α} (hx : x ∈ l) (hy : y ∈ l) {b : β} (hxb : f x = some b)
    (hyb : f y = some b) : x = y := by
  -- If one of the two is the head, its image does not occur in the tail, so the other is the head.
  induction l with
  | nil => contradiction
  | cons z l ih =>
      rcases List.mem_cons.mp hx with rfl | hx'
      · rcases List.mem_cons.mp hy with rfl | hy'
        · rfl
        · rw [List.filterMap_cons_some hxb] at h
          exact absurd (List.mem_filterMap.mpr ⟨y, hy', hyb⟩) (List.nodup_cons.mp h).1
      · rcases List.mem_cons.mp hy with rfl | hy'
        · rw [List.filterMap_cons_some hyb] at h
          exact absurd (List.mem_filterMap.mpr ⟨x, hx', hxb⟩) (List.nodup_cons.mp h).1
        · refine ih (h.sublist ?_) hx' hy'
          exact (List.sublist_cons_self z l).filterMap f

/-- In a block of distinct statements an identity belongs to one occurrence. -/
theorem eq_of_id {b : Block} (h : Distinct b) {i j : Occurrence} {d : NodeId}
    (hi : i ∈ occurrences b) (hj : j ∈ occurrences b) (hid : i.id? = some d)
    (hjd : j.id? = some d) : i = j :=
  eq_of_nodup_filterMap h hi hj hid hjd

end Scoping

end Devirt
