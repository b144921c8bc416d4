import Devirt.Proofs.Replacement
import Devirt.Proofs.Scoping

set_option autoImplicit false

/-! # Replacements seen through scopes

A replacement changes the occurrences at one place, and the scopes of what follows that place.  A
relation between lists of occurrences that respects both (`Respects`) therefore holds for a whole
replacement as soon as it holds for the answers of the hooks (`Respects.block_step`).  The hooks may
rely on what the occurrences before a place say about its scope. -/

namespace Devirt

namespace Scoping

/-- The relation `R` allows for the changes of scope that `W` describes. -/
structure Rescoping (W : Scope → Scope → Prop) (R : List Occurrence → List Occurrence → Prop) :
    Prop where
  same : ∀ Γ, W Γ Γ
  cons : ∀ β {Γ Δ}, W Γ Δ → W (β :: Γ) (β :: Δ)
  refl : ∀ xs, R xs xs
  append : ∀ {xs ys xs' ys'}, R xs ys → R xs' ys' → R (xs ++ xs') (ys ++ ys')
  read : ∀ n {Γ Δ}, W Γ Δ → R [.read n Γ] [.read n Δ]
  bind : ∀ β values {Γ Δ}, W Γ Δ → R [.bind β values Γ] [.bind β values Δ]

/-- The relation `R` respects the replacements of the pass.  A scope may change as `W` allows; `S`
is what is known of the scope in which a hook answers. -/
structure Respects (p : Pass) (S : Scope → Prop) (W : Scope → Scope → Prop)
    (R : List Occurrence → List Occurrence → Prop) : Prop extends Rescoping W R where
  /-- A statement gets other values. -/
  revalue : ∀ β values values' Γ, R [.bind β values Γ] [.bind β values' Γ]
  /-- What follows a statement may rely on it. -/
  known : ∀ β values {Γ xs ys}, S Γ → (S (β :: Γ) → R xs ys) →
    R (.bind β values Γ :: xs) (.bind β values Γ :: ys)
  /-- What is no name does not become one. -/
  name : ∀ e e', p.onExpr e = some e' → e'.name? = none
  expr : ∀ Γ e e', S Γ → p.onExpr e = some e' → R (exprOccs Γ e) (exprOccs Γ e')
  stmt : ∀ Γ s s', S Γ → p.onStmt s = some s' → R (stmtOccs Γ s) (stmtOccs Γ s')
  after : ∀ Γ s s', p.onStmt s = some s' → W (after Γ s) (after Γ s')
  block : ∀ Γ b b', p.block b = some b' → R (stmtsOccs Γ b) (stmtsOccs Γ b')
  afterAll : ∀ Γ b b', p.block b = some b' → W (afterAll Γ b) (afterAll Γ b')

/-! ## A tree in another scope -/

namespace Rescoping

variable {W : Scope → Scope → Prop} {R : List Occurrence → List Occurrence → Prop}

section

variable (hR : Rescoping W R) {Γ Δ : Scope}

include hR

theorem after_scope (h : W Γ Δ) (s : Stmt) : W (after Γ s) (after Δ s) := by
  unfold after
  cases binding? s with
  | none => exact h
  | some β => exact hR.cons β h

theorem afterAll_scope (h : W Γ Δ) (b : Block) :
    W (afterAll Γ b) (afterAll Δ b) := by
  induction b generalizing Γ Δ with
  | nil => exact h
  | cons s b ih => exact ih (hR.after_scope h s)

theorem rebind {xs ys : List Occurrence} {β : Binding} {values : List Expr} (h : W Γ Δ)
    (hxs : R xs ys) : R (.bind β values Γ :: xs) (.bind β values Δ :: ys) :=
  hR.append (hR.bind β values h) hxs

end

-- On the tree.  The scope grows along a block on both sides alike (`after_scope`).
mutual

theorem expr_scope (hR : Rescoping W R) {Γ Δ : Scope} (h : W Γ Δ) : (e : Expr) →
    R (exprOccs Γ e) (exprOccs Δ e)
  | .nil | .bool _ | .number _ | .string _ | .vararg => hR.refl _
  | .name n => hR.read n h
  | .binary _ l k => hR.append (expr_scope hR h l) (expr_scope hR h k)
  | .unary _ e => expr_scope hR h e
  | .member o _ => expr_scope hR h o
  | .index t k => hR.append (expr_scope hR h t) (expr_scope hR h k)
  | .call f args => hR.append (expr_scope hR h f) (exprs_scope hR h args)
  | .table entries => entries_scope hR h entries
  | .function _ _ body => stmts_scope hR h body

theorem exprs_scope (hR : Rescoping W R) {Γ Δ : Scope} (h : W Γ Δ) : (es : List Expr) →
    R (exprsOccs Γ es) (exprsOccs Δ es)
  | [] => hR.refl _
  | e :: es => hR.append (expr_scope hR h e) (exprs_scope hR h es)

theorem entries_scope (hR : Rescoping W R) {Γ Δ : Scope} (h : W Γ Δ) : (es : List Entry) →
    R (entriesOccs Γ es) (entriesOccs Δ es)
  | [] => hR.refl _
  | .positional v :: es => hR.append (expr_scope hR h v) (entries_scope hR h es)
  | .keyed k v :: es =>
      hR.append (hR.append (expr_scope hR h k) (expr_scope hR h v)) (entries_scope hR h es)

theorem targets_scope (hR : Rescoping W R) {Γ Δ : Scope} (h : W Γ Δ) : (es : List Expr) →
    R (targetsOccs Γ es) (targetsOccs Δ es)
  | [] => hR.refl _
  | e :: es => by
      refine hR.append ?_ (targets_scope hR h es)
      split
      · exact hR.refl _
      · exact expr_scope hR h e

theorem stmt_scope (hR : Rescoping W R) {Γ Δ : Scope} (h : W Γ Δ) : (s : Stmt) →
    R (stmtOccs Γ s) (stmtOccs Δ s)
  | .declare _ _ values => hR.rebind h (exprs_scope hR h values)
  | .assign _ targets values =>
      hR.rebind h (hR.append (exprs_scope hR h values) (targets_scope hR (hR.cons _ h) targets))
  | .call f args => hR.append (expr_scope hR h f) (exprs_scope hR h args)
  | .scope body => stmts_scope hR h body
  | .branch clauses none => clauses_scope hR h clauses
  | .branch clauses (some body) =>
      hR.append (clauses_scope hR h clauses) (stmts_scope hR h body)
  | .whileLoop cond body => hR.append (expr_scope hR h cond) (stmts_scope hR h body)
  | .repeatLoop body cond =>
      hR.append (stmts_scope hR h body) (expr_scope hR (hR.afterAll_scope h body) cond)
  | .numericFor _ start limit none body =>
      hR.append (hR.append (expr_scope hR h start) (expr_scope hR h limit))
        (stmts_scope hR h body)
  | .numericFor _ start limit (some step) body =>
      hR.append
        (hR.append (hR.append (expr_scope hR h start) (expr_scope hR h limit))
          (expr_scope hR h step))
        (stmts_scope hR h body)
  | .genericFor _ exprs body => hR.append (exprs_scope hR h exprs) (stmts_scope hR h body)
  | .ret values => exprs_scope hR h values
  | .brk => hR.refl _

theorem stmts_scope (hR : Rescoping W R) {Γ Δ : Scope} (h : W Γ Δ) : (b : List Stmt) →
    R (stmtsOccs Γ b) (stmtsOccs Δ b)
  | [] => hR.refl _
  | s :: b => hR.append (stmt_scope hR h s) (stmts_scope hR (hR.after_scope h s) b)

theorem clauses_scope (hR : Rescoping W R) {Γ Δ : Scope} (h : W Γ Δ) : (cs : List Clause) →
    R (clausesOccs Γ cs) (clausesOccs Δ cs)
  | [] => hR.refl _
  | .mk cond body :: cs =>
      hR.append (hR.append (expr_scope hR h cond) (stmts_scope hR h body))
        (clauses_scope hR h cs)

end

/-! ## Statements are removed -/

section

variable (hR : Rescoping W R) {keep : Stmt → Bool}
  (hkeep : ∀ s, keep s = false → ∀ Γ, W (after Γ s) Γ)
  (htrans : ∀ {Γ Δ Θ}, W Γ Δ → W Δ Θ → W Γ Θ)

include hR hkeep htrans

theorem afterAll_filter (b : Block) {Γ Δ : Scope} (h : W Γ Δ) :
    W (afterAll Γ b) (afterAll Δ (b.filter keep)) := by
  -- on the block, with the scopes before and after the removal side by side
  induction b generalizing Γ Δ with
  | nil => exact h
  | cons s b ih =>
      cases hs : keep s with
      | true =>
          rw [List.filter_cons_of_pos (by simp [hs])]
          exact ih (hR.after_scope h s)
      | false =>
          rw [List.filter_cons_of_neg (by simp [hs])]
          exact ih (htrans (hkeep s hs Γ) h)

theorem stmts_filter (hdrop : ∀ zs {xs ys}, R xs ys → R (zs ++ xs) ys) (b : Block)
    {Γ Δ : Scope} (h : W Γ Δ) : R (stmtsOccs Γ b) (stmtsOccs Δ (b.filter keep)) := by
  induction b generalizing Γ Δ with
  | nil => exact hR.refl _
  | cons s b ih =>
      cases hs : keep s with
      | true =>
          rw [List.filter_cons_of_pos (by simp [hs])]
          exact hR.append (hR.stmt_scope h s) (ih (hR.after_scope h s))
      | false =>
          rw [List.filter_cons_of_neg (by simp [hs])]
          exact hdrop _ (ih (htrans (hkeep s hs Γ) h))

end

end Rescoping

/-- Whatever live name is in scope may be so by another statement of the same identity. -/
theorem rescoping_below (live : String → Prop) :
    Rescoping (Within live) (List.Forall₂ (Below live)) where
  same := .refl
  cons β _ _ h := h.cons β
  refl xs := by
    refine List.forall₂_same.mpr fun i _ => ?_
    cases i with
    | read n Γ => exact .read n (.refl Γ)
    | bind β values Γ => exact .bind β values (.refl Γ)
  append h h' := List.rel_append h h'
  read n _ _ h := .cons (.read n h) .nil
  bind β values _ _ h := .cons (.bind β values h) .nil

/-! ## One replacement -/

namespace Respects

variable {p : Pass} {S : Scope → Prop} {W : Scope → Scope → Prop}
  {R : List Occurrence → List Occurrence → Prop}

section

variable (hR : Respects p S W R)

include hR

/-- A name is no place for a replacement. -/
theorem name?_step {e e' : Expr} (h : ExprStep p e e') : e.name? = none ∧ e'.name? = none := by
  cases h with
  | hook h =>
      refine ⟨?_, hR.name _ _ h⟩
      cases e with
      | name n => contradiction
      | _ => rfl
  | _ => exact ⟨rfl, rfl⟩

theorem names_step {es es' : List Expr} (h : ListStep (ExprStep p) es es') :
    es'.filterMap Expr.name? = es.filterMap Expr.name? := by
  induction h with
  | head h =>
      obtain ⟨hn, hn'⟩ := hR.name?_step h
      rw [List.filterMap_cons_none hn, List.filterMap_cons_none hn']
  | tail _ ih => rw [List.filterMap_cons, List.filterMap_cons, ih]

/-- What a replacement does to the scope behind a statement. -/
theorem after_step {s s' : Stmt} (h : StmtStep p s s') (Γ : Scope) :
    W (Scoping.after Γ s) (Scoping.after Γ s') := by
  cases h with
  | hook h => exact hR.after Γ _ _ h
  | assignTargets h =>
      simp only [Scoping.after, binding?, hR.names_step h]
      exact hR.same _
  | _ => exact hR.same _

theorem afterAll_step {b b' : Block} (h : BlockStep p b b') (Γ : Scope) :
    W (Scoping.afterAll Γ b) (Scoping.afterAll Γ b') := by
  cases h with
  | hook h => exact hR.afterAll Γ _ _ h
  | items h =>
      induction h generalizing Γ with
      | head h => exact hR.afterAll_scope (hR.after_step h Γ) _
      | tail _ ih => exact ih _

/-- What follows the occurrences of a statement may rely on them. -/
theorem known_stmt {Γ : Scope} {xs ys : List Occurrence} (hΓ : S Γ) (s : Stmt)
    (h : S (Scoping.after Γ s) → R xs ys) : R (stmtOccs Γ s ++ xs) (stmtOccs Γ s ++ ys) := by
  cases s with
  | declare id names values =>
      refine hR.known _ values hΓ fun hβ => ?_
      exact hR.append (hR.refl _) (h hβ)
  | assign id targets values =>
      refine hR.known _ values hΓ fun hβ => ?_
      exact hR.append (hR.refl _) (h hβ)
  | _ => exact hR.append (hR.refl _) (h hΓ)

theorem known_stmts {Γ : Scope} {xs ys : List Occurrence} (hΓ : S Γ) (b : Block)
    (h : S (Scoping.afterAll Γ b) → R xs ys) : R (stmtsOccs Γ b ++ xs) (stmtsOccs Γ b ++ ys) := by
  induction b generalizing Γ with
  | nil => exact h hΓ
  | cons s b ih =>
      rw [stmtsOccs, List.append_assoc, List.append_assoc]
      exact hR.known_stmt hΓ s fun hs => ih hs h

end

-- Structural on the step.
mutual

theorem expr_step (hR : Respects p S W R) : {e e' : Expr} → ExprStep p e e' → (Γ : Scope) →
    S Γ → R (exprOccs Γ e) (exprOccs Γ e')
  | _, _, .hook h, Γ, hΓ => hR.expr Γ _ _ hΓ h
  | _, _, .binaryLeft h, Γ, hΓ => hR.append (expr_step hR h Γ hΓ) (hR.refl _)
  | _, _, .binaryRight h, Γ, hΓ => hR.append (hR.refl _) (expr_step hR h Γ hΓ)
  | _, _, .unary h, Γ, hΓ => expr_step hR h Γ hΓ
  | _, _, .member h, Γ, hΓ => expr_step hR h Γ hΓ
  | _, _, .indexTable h, Γ, hΓ => hR.append (expr_step hR h Γ hΓ) (hR.refl _)
  | _, _, .indexKey h, Γ, hΓ => hR.append (hR.refl _) (expr_step hR h Γ hΓ)
  | _, _, .callFunc h, Γ, hΓ => hR.append (expr_step hR h Γ hΓ) (hR.refl _)
  | _, _, .callArgs h, Γ, hΓ => hR.append (hR.refl _) (exprs_step hR h Γ hΓ)
  | _, _, .table h, Γ, hΓ => entries_step hR h Γ hΓ
  | _, _, .function h, Γ, hΓ => block_step hR h Γ hΓ

theorem exprs_step (hR : Respects p S W R) : {es es' : List Expr} →
    ListStep (ExprStep p) es es' → (Γ : Scope) → S Γ → R (exprsOccs Γ es) (exprsOccs Γ es')
  | _, _, .head h, Γ, hΓ => hR.append (expr_step hR h Γ hΓ) (hR.refl _)
  | _, _, .tail h, Γ, hΓ => hR.append (hR.refl _) (exprs_step hR h Γ hΓ)

theorem entries_step (hR : Respects p S W R) : {es es' : List Entry} →
    ListStep (EntryStep p) es es' → (Γ : Scope) → S Γ →
    R (entriesOccs Γ es) (entriesOccs Γ es')
  | _, _, .head (.positional h), Γ, hΓ => hR.append (expr_step hR h Γ hΓ) (hR.refl _)
  | _, _, .head (.key h), Γ, hΓ =>
      hR.append (hR.append (expr_step hR h Γ hΓ) (hR.refl _)) (hR.refl _)
  | _, _, .head (.value h), Γ, hΓ =>
      hR.append (hR.append (hR.refl _) (expr_step hR h Γ hΓ)) (hR.refl _)
  | .positional _ :: _, _, .tail h, Γ, hΓ => hR.append (hR.refl _) (entries_step hR h Γ hΓ)
  | .keyed _ _ :: _, _, .tail h, Γ, hΓ => hR.append (hR.refl _) (entries_step hR h Γ hΓ)

theorem targets_step (hR : Respects p S W R) : {es es' : List Expr} →
    ListStep (ExprStep p) es es' → (Γ : Scope) → S Γ → R (targetsOccs Γ es) (targetsOccs Γ es')
  | _, _, .head h, Γ, hΓ => by
      obtain ⟨hn, hn'⟩ := hR.name?_step h
      rw [targetsOccs, targetsOccs, hn, hn']
      exact hR.append (expr_step hR h Γ hΓ) (hR.refl _)
  | _, _, .tail h, Γ, hΓ => hR.append (hR.refl _) (targets_step hR h Γ hΓ)

theorem stmt_step (hR : Respects p S W R) : {s s' : Stmt} → StmtStep p s s' → (Γ : Scope) →
    S Γ → R (stmtOccs Γ s) (stmtOccs Γ s')
  | _, _, .hook h, Γ, hΓ => hR.stmt Γ _ _ hΓ h
  | _, _, .declare h, Γ, hΓ => hR.append (hR.revalue _ _ _ Γ) (exprs_step hR h Γ hΓ)
  | .assign _ _ _, .assign _ _ _, .assignTargets h, Γ, hΓ => by
      rw [stmtOccs, stmtOccs, hR.names_step h]
      refine hR.known _ _ hΓ fun hβ => ?_
      exact hR.append (hR.refl _) (targets_step hR h _ hβ)
  | _, _, .assignValues h, Γ, hΓ =>
      hR.append (hR.revalue _ _ _ Γ) (hR.append (exprs_step hR h Γ hΓ) (hR.refl _))
  | _, _, .callFunc h, Γ, hΓ => hR.append (expr_step hR h Γ hΓ) (hR.refl _)
  | _, _, .callArgs h, Γ, hΓ => hR.append (hR.refl _) (exprs_step hR h Γ hΓ)
  | _, _, .scope h, Γ, hΓ => block_step hR h Γ hΓ
  | .branch _ none, _, .clauses h, Γ, hΓ => clauses_step hR h Γ hΓ
  | .branch _ (some _), _, .clauses h, Γ, hΓ =>
      hR.append (clauses_step hR h Γ hΓ) (hR.refl _)
  | _, _, .orElse h, Γ, hΓ => hR.append (hR.refl _) (block_step hR h Γ hΓ)
  | _, _, .whileCond h, Γ, hΓ => hR.append (expr_step hR h Γ hΓ) (hR.refl _)
  | _, _, .whileBody h, Γ, hΓ => hR.append (hR.refl _) (block_step hR h Γ hΓ)
  | _, _, .repeatBody h, Γ, hΓ =>
      hR.append (block_step hR h Γ hΓ) (hR.expr_scope (hR.afterAll_step h Γ) _)
  | _, _, .repeatCond h, Γ, hΓ => hR.known_stmts hΓ _ fun hbody => expr_step hR h _ hbody
  | .numericFor _ _ _ none _, _, .forStart h, Γ, hΓ =>
      hR.append (hR.append (expr_step hR h Γ hΓ) (hR.refl _)) (hR.refl _)
  | .numericFor _ _ _ (some _) _, _, .forStart h, Γ, hΓ =>
      hR.append (hR.append (hR.append (expr_step hR h Γ hΓ) (hR.refl _)) (hR.refl _)) (hR.refl _)
  | .numericFor _ _ _ none _, _, .forLimit h, Γ, hΓ =>
      hR.append (hR.append (hR.refl _) (expr_step hR h Γ hΓ)) (hR.refl _)
  | .numericFor _ _ _ (some _) _, _, .forLimit h, Γ, hΓ =>
      hR.append (hR.append (hR.append (hR.refl _) (expr_step hR h Γ hΓ)) (hR.refl _)) (hR.refl _)
  | _, _, .forStep h, Γ, hΓ =>
      hR.append (hR.append (hR.refl _) (expr_step hR h Γ hΓ)) (hR.refl _)
  | .numericFor _ _ _ none _, _, .forBody h, Γ, hΓ =>
      hR.append (hR.refl _) (block_step hR h Γ hΓ)
  | .numericFor _ _ _ (some _) _, _, .forBody h, Γ, hΓ =>
      hR.append (hR.refl _) (block_step hR h Γ hΓ)
  | _, _, .genericExprs h, Γ, hΓ => hR.append (exprs_step hR h Γ hΓ) (hR.refl _)
  | _, _, .genericBody h, Γ, hΓ => hR.append (hR.refl _) (block_step hR h Γ hΓ)
  | _, _, .ret h, Γ, hΓ => exprs_step hR h Γ hΓ

/-- A replacement relates the occurrences before and after it as the answers of the hooks are
related. -/
theorem block_step (hR : Respects p S W R) : {b b' : Block} → BlockStep p b b' → (Γ : Scope) →
    S Γ → R (stmtsOccs Γ b) (stmtsOccs Γ b')
  | _, _, .hook h, Γ, _ => hR.block Γ _ _ h
  | _, _, .items h, Γ, hΓ => stmts_step hR h Γ hΓ

theorem stmts_step (hR : Respects p S W R) : {b b' : List Stmt} →
    ListStep (StmtStep p) b b' → (Γ : Scope) → S Γ → R (stmtsOccs Γ b) (stmtsOccs Γ b')
  | _, _, .head h, Γ, hΓ =>
      hR.append (stmt_step hR h Γ hΓ) (hR.stmts_scope (hR.after_step h Γ) _)
  | _, _, .tail h, _, hΓ => hR.known_stmt hΓ _ fun hs => stmts_step hR h _ hs

theorem clauses_step (hR : Respects p S W R) : {cs cs' : List Clause} →
    ListStep (ClauseStep p) cs cs' → (Γ : Scope) → S Γ →
    R (clausesOccs Γ cs) (clausesOccs Γ cs')
  | _, _, .head (.cond h), Γ, hΓ =>
      hR.append (hR.append (expr_step hR h Γ hΓ) (hR.refl _)) (hR.refl _)
  | _, _, .head (.body h), Γ, hΓ =>
      hR.append (hR.append (hR.refl _) (block_step hR h Γ hΓ)) (hR.refl _)
  | .mk _ _ :: _, _, .tail h, Γ, hΓ => hR.append (hR.refl _) (clauses_step hR h Γ hΓ)

end

end Respects

end Scoping

end Devirt
