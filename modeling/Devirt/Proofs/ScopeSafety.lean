import Devirt.Proofs.FoldingRules
import Devirt.Proofs.ScopedSteps
import Devirt.Proofs.TemporaryRules
import Devirt.Proofs.Tracking
import Mathlib.Tactic

set_option autoImplicit false

/-! # Simplifying strands no read

During a walk the table is that of the block before.  What keeps reads in scope is an invariant of
each occurrence by itself (`Good`), about the table and the scope of its place alone: a read is of a
name the table knows to be read, in scope of the declaration the table gives it; and where a
declaration stands, the value the table gives it may stand as well.  One replacement of a pass keeps
all occurrences good (`respects_of_keeps`) provided its hooks do (`Keeps`), and adds no statement.

At the end of a walk, good occurrences and distinct statements make a scoped block. -/

namespace Devirt

namespace Scoping

open Temporaries

section

variable (c : Context) (L : String → Prop)

/-! ## The invariant -/

/-- The table has reads of the name. -/
def Live (n : String) : Prop := ∃ v, c.usage.get? n = some v ∧ 0 < v.reads

/-- The name is a temporary that stays in the block of its declaration, the statement `d`. -/
def DeclaredBy (n : String) (d : NodeId) : Prop :=
  ∃ v, c.temporary n = some v ∧ v.declaration = some d

/-- The name may be read in the scope; `L` are the names declared by `local` before the walk. -/
structure Safe (Γ : Scope) (n : String) : Prop where
  live : Live c n
  declared : ∀ d, DeclaredBy c n d → ∃ β ∈ Γ, β.id = d ∧ n ∈ β.names
  isLocal : L n → ∃ β ∈ Γ, β.isLocal ∧ n ∈ β.names

/-- All reads are safe in their scopes. -/
def SafeReads (xs : List Occurrence) : Prop := ∀ n Γ, .read n Γ ∈ xs → Safe c L Γ n

/-- The values of the names declared by the statement `d` may be read in the scope. -/
def Supported (Γ : Scope) (d : NodeId) : Prop :=
  ∀ n v x, c.temporary n = some v → v.declaration = some d → v.value = some x →
    SafeReads c L (exprOccs Γ x)

def Supports (Γ : Scope) : Prop := ∀ β ∈ Γ, Supported c L Γ β.id

/-- A safe read, or a statement whose values may be read where it stands; what is a `local` now was
one before or is the declaration of what it binds. -/
def Good : Occurrence → Prop
  | .read n Γ => Safe c L Γ n
  | .bind β _ Γ =>
    Supported c L Γ β.id ∧ (β.isLocal → ∀ n ∈ β.names, L n ∨ DeclaredBy c n β.id)

def AllGood (xs : List Occurrence) : Prop := ∀ i ∈ xs, Good c L i

end

variable {c : Context} {L : String → Prop} {Γ Δ : Scope} {xs ys zs : List Occurrence}

theorem allGood_append : AllGood c L (xs ++ ys) ↔ AllGood c L xs ∧ AllGood c L ys :=
  List.forall_mem_append

theorem allGood_cons {i : Occurrence} :
    AllGood c L (i :: xs) ↔ Good c L i ∧ AllGood c L xs :=
  List.forall_mem_cons

/-! ## Larger scopes are as good -/

theorem Safe.mono {n : String} (h : Safe c L Γ n) (hΓ : Within (Live c) Γ Δ) : Safe c L Δ n := by
  refine ⟨h.live, fun d hd => ?_, fun hL => ?_⟩
  · obtain ⟨β, hβ, hid, hn⟩ := h.declared d hd
    obtain ⟨β', hβ', hid', hn', -⟩ := hΓ β hβ n hn h.live
    exact ⟨β', hβ', hid'.trans hid, hn'⟩
  · obtain ⟨β, hβ, hlocal, hn⟩ := h.isLocal hL
    obtain ⟨β', hβ', -, hn', hlocal'⟩ := hΓ β hβ n hn h.live
    exact ⟨β', hβ', hlocal' hlocal, hn'⟩

theorem SafeReads.below (h : List.Forall₂ (Below (Live c)) xs ys) (hx : SafeReads c L xs) :
    SafeReads c L ys := by
  intro n Δ hn
  induction h with
  | nil => contradiction
  | cons hi _ ih =>
      rcases List.mem_cons.mp hn with rfl | hn
      · cases hi with
        | read n hΓ => exact (hx n _ (by simp)).mono hΓ
      · exact ih (fun m Θ hm => hx m Θ (List.mem_cons_of_mem _ hm)) hn

theorem Supported.mono {d : NodeId} (h : Supported c L Γ d) (hΓ : Within (Live c) Γ Δ) :
    Supported c L Δ d :=
  fun n v x hv hd hx => (h n v x hv hd hx).below ((rescoping_below _).expr_scope hΓ x)

theorem Good.below {i j : Occurrence} (h : Below (Live c) i j) (hi : Good c L i) :
    Good c L j := by
  cases h with
  | read n hΓ => exact Safe.mono hi hΓ
  | bind β values hΓ =>
      obtain ⟨hsupported, hlocal⟩ := hi
      exact ⟨hsupported.mono hΓ, hlocal⟩

/-- A scope gets larger by a statement. -/
theorem within_cons (β : Binding) : Within (Live c) Γ (β :: Γ) :=
  fun γ hγ _ hn _ => ⟨γ, List.mem_cons_of_mem _ hγ, rfl, hn, id⟩

theorem Supports.cons (h : Supports c L Γ) {β : Binding} (hβ : Supported c L Γ β.id) :
    Supports c L (β :: Γ) := by
  intro γ hγ
  rcases List.mem_cons.mp hγ with rfl | hγ
  · exact hβ.mono (within_cons _)
  · exact (h γ hγ).mono (within_cons _)

/-! ## Refinement -/

/-- If the occurrences `xs` are good then so are `ys`, and their statements are among those of
`xs`. -/
def Refines (c : Context) (L : String → Prop) (xs ys : List Occurrence) : Prop :=
  AllGood c L xs → AllGood c L ys ∧
    ∀ d, (ys.filterMap Occurrence.id?).count d ≤ (xs.filterMap Occurrence.id?).count d

namespace Refines

theorem refl (xs : List Occurrence) : Refines c L xs xs := by
  intro h
  exact ⟨h, fun _ => le_rfl⟩

theorem append {xs' ys' : List Occurrence} (h : Refines c L xs ys) (h' : Refines c L xs' ys') :
    Refines c L (xs ++ xs') (ys ++ ys') := by
  intro hgood
  obtain ⟨hx, hx'⟩ := allGood_append.mp hgood
  obtain ⟨hy, hcount⟩ := h hx
  obtain ⟨hy', hcount'⟩ := h' hx'
  refine ⟨allGood_append.mpr ⟨hy, hy'⟩, ?_⟩
  intro d
  rw [List.filterMap_append, List.filterMap_append, List.count_append, List.count_append]
  have := hcount d
  have := hcount' d
  omega

/-- What is left of two trees when the first is dropped. -/
theorem drop (h : Refines c L xs ys) : Refines c L (zs ++ xs) ys := by
  intro hgood
  obtain ⟨-, hx⟩ := allGood_append.mp hgood
  obtain ⟨hy, hcount⟩ := h hx
  refine ⟨hy, ?_⟩
  intro d
  rw [List.filterMap_append, List.count_append]
  have := hcount d
  omega

/-- A refinement may rely on what it starts from. -/
theorem of_good (h : AllGood c L xs → Refines c L xs ys) : Refines c L xs ys :=
  fun hgood => h hgood hgood

theorem below (h : List.Forall₂ (Below (Live c)) xs ys) : Refines c L xs ys := by
  intro hgood
  induction h with
  | nil => exact ⟨hgood, fun _ => le_rfl⟩
  | @cons i j xs ys hij _ ih =>
      obtain ⟨hi, hx⟩ := allGood_cons.mp hgood
      obtain ⟨hy, hcount⟩ := ih hx
      refine ⟨allGood_cons.mpr ⟨hi.below hij, hy⟩, ?_⟩
      intro d
      have hid : i.id? = j.id? := by cases hij <;> rfl
      rw [List.filterMap_cons, List.filterMap_cons, hid]
      cases j.id? with
      | none => exact hcount d
      | some d' =>
          have := hcount d
          simp only [List.count_cons]
          omega

/-- A statement with other values. -/
theorem bind {β : Binding} {values values' : List Expr} (h : Refines c L xs ys) :
    Refines c L (.bind β values Γ :: xs) (.bind β values' Γ :: ys) := by
  intro hgood
  obtain ⟨hβ, hx⟩ := allGood_cons.mp hgood
  obtain ⟨hy, hcount⟩ := h hx
  refine ⟨allGood_cons.mpr ⟨hβ, hy⟩, ?_⟩
  intro d
  have := hcount d
  simp only [List.filterMap_cons, Occurrence.id?, List.count_cons]
  omega

end Refines

/-! ## One replacement -/

/-- The hooks of a pass refine what they replace, and lose nothing live from the scope of what
follows. -/
structure Keeps (c : Context) (L : String → Prop) (p : Pass) : Prop where
  /-- What is no name does not become one. -/
  name : ∀ e e', p.onExpr e = some e' → e'.name? = none
  expr : ∀ Γ e e', Supports c L Γ → p.onExpr e = some e' →
    Refines c L (exprOccs Γ e) (exprOccs Γ e')
  stmt : ∀ Γ s s', Supports c L Γ → p.onStmt s = some s' →
    Refines c L (stmtOccs Γ s) (stmtOccs Γ s')
  after : ∀ Γ s s', p.onStmt s = some s' → Within (Live c) (after Γ s) (after Γ s')
  block : ∀ Γ b b', p.block b = some b' → Refines c L (stmtsOccs Γ b) (stmtsOccs Γ b')
  afterAll : ∀ Γ b b', p.block b = some b' → Within (Live c) (afterAll Γ b) (afterAll Γ b')

theorem rescoping_refines : Rescoping (Within (Live c)) (Refines c L) where
  same := .refl
  cons β _ _ h := h.cons β
  refl := .refl
  append := .append
  read n _ _ h := .below (.cons (.read n h) .nil)
  bind β values _ _ h := .below (.cons (.bind β values h) .nil)

/-- Refinement is a matter of the changed place: an improvement of the scope behind it is one of
what stands there. -/
theorem respects_of_keeps {p : Pass} (hp : Keeps c L p) :
    Respects p (Supports c L) (Within (Live c)) (Refines c L) where
  toRescoping := rescoping_refines
  revalue β values values' Γ := .bind (.refl [])
  known β values {Γ xs ys} hΓ h := by
    refine .of_good fun hgood => ?_
    have hβ : Supported c L Γ β.id := (allGood_cons.mp hgood).1.1
    exact .bind (h (hΓ.cons hβ))
  name := hp.name
  expr := hp.expr
  stmt := hp.stmt
  after := hp.after
  block := hp.block
  afterAll := hp.afterAll

/-! ## Folding -/

/-- Folding keeps the occurrences, or drops them all. -/
theorem exprOccs_folding (Γ : Scope) {e e' : Expr} (h : Folding.pass.onExpr e = some e') :
    exprOccs Γ e' = exprOccs Γ e ∨ exprOccs Γ e' = [] := by
  cases Folding.foldsTo_of_onExpr h with
  | negation x | length hall => exact .inr rfl
  | comparison hop hr => exact .inl (by simp [exprOccs])

theorem keeps_folding : Keeps c L Folding.pass where
  name e e' h := by
    cases Folding.foldsTo_of_onExpr h <;> rfl
  expr Γ e e' _ h := by
    rcases exprOccs_folding Γ h with hsame | hnone
    · rw [hsame]
      exact .refl _
    · rw [hnone]
      intro _
      exact ⟨by simp [AllGood], by simp⟩
  stmt Γ s s' _ h := by
    cases s <;> contradiction
  after Γ s s' h := by
    cases s <;> contradiction
  block _ _ _ h := by contradiction
  afterAll _ _ _ h := by contradiction

/-! ## Temporaries -/

/-- A name with a value in the table has a declaration. -/
def Coherent (c : Context) : Prop :=
  ∀ n v x, c.usage.get? n = some v → v.value = some x → ∃ d, v.declaration = some d

theorem OnlyReads.ids {xs : List Occurrence} (h : OnlyReads Γ xs) :
    xs.filterMap Occurrence.id? = [] := by
  rw [List.filterMap_eq_nil_iff]
  intro i hi
  obtain ⟨n, rfl⟩ := h i hi
  rfl

/-- The value of a temporary may be read where the temporary is. -/
theorem refines_substitute (hc : Coherent c) (hΓ : Supports c L Γ) {e e' : Expr}
    (h : c.substitute e = some e') : Refines c L (exprOccs Γ e) (exprOccs Γ e') := by
  obtain ⟨n, v, rfl, hv, hvalue, hinline⟩ := Context.substitute_eq_some h
  have honly : OnlyReads Γ (exprOccs Γ e') :=
    onlyReads_expr Γ e' (Context.mentions_of_inlinable hinline)
  intro hgood
  have hsafe : Safe c L Γ n := hgood (.read n Γ) (by simp [exprOccs])
  obtain ⟨d, hd⟩ := hc n v e' (Context.temporary_eq_some.mp hv).2.1 hvalue
  -- the name is in scope of its declaration, which supports the value here
  obtain ⟨β, hβ, rfl, -⟩ := hsafe.declared d ⟨v, hv, hd⟩
  constructor
  · intro i hi
    obtain ⟨m, rfl⟩ := honly i hi
    exact hΓ β hβ n v e' hv hd hvalue m Γ hi
  · intro d'
    rw [honly.ids]
    exact Nat.zero_le _

theorem refines_substitutePair (hc : Coherent c) (hΓ : Supports c L Γ) {l k : Expr}
    {p : Expr × Expr} (h : c.substitutePair l k = some p) :
    Refines c L (exprOccs Γ l) (exprOccs Γ p.1) ∧ Refines c L (exprOccs Γ k) (exprOccs Γ p.2) := by
  obtain ⟨hl, hk⟩ := Context.substitutePair_eq_some h
  constructor
  · rcases hl with hl | hl
    · rw [hl]
      exact .refl _
    · exact refines_substitute hc hΓ hl
  · rcases hk with hk | hk
    · rw [hk]
      exact .refl _
    · exact refines_substitute hc hΓ hk

theorem refines_operands (hc : Coherent c) (hΓ : Supports c L Γ) {e e' : Expr}
    (h : c.pass.onExpr e = some e') : Refines c L (exprOccs Γ e) (exprOccs Γ e') := by
  obtain ⟨l, k, p, hp, hcases⟩ := Context.onExpr_eq_some h
  obtain ⟨hl, hk⟩ := refines_substitutePair hc hΓ hp
  rcases hcases with ⟨op, rfl, rfl⟩ | ⟨rfl, rfl⟩ | ⟨f, rfl, rfl⟩
  · exact .append hl hk
  · exact .append hl hk
  · exact .append (.refl _) (.append hl (.append hk (.refl _)))

/-- Targets that are all names hold no occurrence. -/
theorem targetsOccs_of_declaredBy {id : NodeId} {targets : List Expr}
    (h : ∀ e ∈ targets, c.declaredBy id e = true) : targetsOccs Γ targets = [] := by
  induction targets with
  | nil => rfl
  | cons e targets ih =>
      obtain ⟨n, v, rfl, -⟩ := Context.declaredBy_eq_true (h e (by simp))
      rw [targetsOccs, ih fun e he => h e (by simp [he])]
      rfl

theorem refines_assign (hc : Coherent c) (hΓ : Supports c L Γ) {id : NodeId}
    {targets values : List Expr} {s : Stmt} (h : c.assign id targets values = some s) :
    Refines c L (stmtOccs Γ (.assign id targets values)) (stmtOccs Γ s) := by
  rcases Context.assign_eq_some h with ⟨hall, rfl⟩ | ⟨t, v, v', rfl, rfl, hv', rfl⟩
  · -- the new `local` is the declaration of all that it binds
    have hdeclared : ∀ n ∈ targets.filterMap Expr.name?, DeclaredBy c n id := by
      intro n hn
      obtain ⟨e, he, hname⟩ := List.mem_filterMap.mp hn
      obtain ⟨m, w, rfl, hw, hd⟩ := Context.declaredBy_eq_true (hall e he)
      cases hname
      exact ⟨w, hw, hd⟩
    rw [stmtOccs, stmtOccs, targetsOccs_of_declaredBy hall, List.append_nil]
    intro hgood
    obtain ⟨hβ, hvalues⟩ := allGood_cons.mp hgood
    refine ⟨allGood_cons.mpr ⟨⟨hβ.1, ?_⟩, hvalues⟩, fun d => le_rfl⟩
    intro _ n hn
    exact .inr (hdeclared n hn)
  · exact .bind (.append (.append (refines_substitute hc hΓ hv') (.refl _)) (.refl _))

/-- The names of a dead declaration are not live. -/
theorem within_of_isDeadStmt (s : Stmt) (h : (!c.isDeadStmt s) = false) (Γ : Scope) :
    Within (Live c) (after Γ s) Γ := by
  rw [Bool.not_eq_false'] at h
  cases s with
  | declare id names values =>
      intro β hβ n hn hlive
      rcases List.mem_cons.mp hβ with rfl | hβ
      · -- a live name has reads in the table, a name that is removed has none
        obtain ⟨v, hv, hpos⟩ := hlive
        obtain ⟨w, hw, hzero⟩ := Context.isDead_eq_true h hn
        obtain rfl := Option.some.inj (hv.symm.trans hw)
        omega
      · exact ⟨β, hβ, rfl, hn, fun h => h⟩
  | _ => contradiction

theorem keeps_temporaries (hc : Coherent c) : Keeps c L c.pass where
  name e e' h := by
    obtain ⟨l, k, p, -, ⟨op, -, rfl⟩ | ⟨-, rfl⟩ | ⟨f, -, rfl⟩⟩ := Context.onExpr_eq_some h <;> rfl
  expr Γ e e' hΓ h := refines_operands hc hΓ h
  stmt Γ s s' hΓ h := by
    cases s with
    | assign id targets values => exact refines_assign hc hΓ h
    | call f args =>
        obtain ⟨a, ha, rfl⟩ := Option.map_eq_some_iff.mp h
        have hcall : c.pass.onExpr (.call f args) = some (.call a.1 a.2) :=
          Option.map_eq_some_iff.mpr ⟨a, ha, rfl⟩
        exact refines_operands hc hΓ hcall
    | _ => contradiction
  after Γ s s' h := by
    cases s with
    | assign id targets values =>
        rcases Context.assign_eq_some h with ⟨-, rfl⟩ | ⟨t, v, v', rfl, rfl, -, rfl⟩
        · intro β hβ n hn _
          rcases List.mem_cons.mp hβ with rfl | hβ
          · exact ⟨_, List.mem_cons_self, rfl, hn, fun h => by contradiction⟩
          · exact ⟨β, List.mem_cons_of_mem _ hβ, rfl, hn, fun h => h⟩
        · exact .refl _
    | call f args =>
        obtain ⟨a, -, rfl⟩ := Option.map_eq_some_iff.mp h
        exact .refl _
    | _ => contradiction
  block Γ b b' h := by
    obtain rfl := Context.block_eq_some h
    exact rescoping_refines.stmts_filter within_of_isDeadStmt .trans (fun zs _ _ h => .drop h) b
      (.refl Γ)
  afterAll Γ b b' h := by
    obtain rfl := Context.block_eq_some h
    exact (rescoping_refines (L := fun _ => False)).afterAll_filter within_of_isDeadStmt .trans b
      (.refl Γ)

/-! ## Walks -/

/-- The table of a block, and the options. -/
abbrev tableOf (options : Options) (b : Block) : Context := ⟨options, b.usage⟩

theorem coherent_tableOf (options : Options) (b : Block) : Coherent (tableOf options b) := by
  intro n v x hv hx
  have htrack := Usage.eq_track_of_get? hv
  cases hd : v.declaration with
  | some d => exact ⟨d, rfl⟩
  | none =>
      rw [htrack] at hd hx
      have hnone := (Usage.coherent_track n (Usage.events b)).value_none hd
      rw [hnone] at hx
      contradiction

section

variable {M : String → Prop} {b : Block} (hM : Covered M b) (hs : Scoped b)

include hM hs

/-- Before a walk the reads of a scoped block are safe, judged by the table of that block. -/
theorem safe_of_scoped (options : Options) {n : String} {Γ : Scope}
    (h : .read n Γ ∈ occurrences b) :
    Safe (tableOf options b) (fun n => M n ∨ IsLocal b n) Γ n := by
  refine ⟨reads_pos h, ?_, fun hn => hn.elim (hM n Γ h) (hs n Γ h)⟩
  rintro d ⟨v, hv, hd⟩
  obtain ⟨-, hget, hesc⟩ := Context.temporary_eq_some.mp hv
  exact declaration_in_scope h hget hesc hd

theorem allGood_of_scoped (options : Options) (hd : Distinct b) :
    AllGood (tableOf options b) (fun n => M n ∨ IsLocal b n) (occurrences b) := by
  intro i hi
  cases i with
  | read n Γ => exact safe_of_scoped hM hs options hi
  | bind β values Γ =>
      refine ⟨?_, fun hlocal n hn => .inl (.inr ⟨β, values, Γ, hi, hlocal, hn⟩)⟩
      intro n v x hv hdecl hx m Δ hm
      obtain ⟨-, hget, -⟩ := Context.temporary_eq_some.mp hv
      -- the statement that holds the value is the one with this identity
      obtain ⟨γ, vs, Θ, hγ, hid, hmem⟩ := value_of_declaration hget hdecl hx
      have heq : Occurrence.bind γ vs Θ = .bind β values Γ :=
        eq_of_id hd hγ hi (by simp [Occurrence.id?, hid]) rfl
      cases heq
      have hocc := (closed_stmts [] b).values β values Γ hi x hmem _ hm
      exact safe_of_scoped hM hs options hocc

end

/-- After a walk every read of a name that is a `local` now or was one is in scope of a `local`. -/
theorem covered_of_allGood {c : Context} {L : String → Prop} {b : Block}
    (h : AllGood c L (occurrences b)) (hd : Distinct b) :
    Covered (fun n => L n ∨ IsLocal b n) b := by
  intro n Γ hread hn
  have hsafe : Safe c L Γ n := h _ hread
  rcases hn with hL | ⟨β, values, Δ, hβ, hlocal, hn⟩
  · exact hsafe.isLocal hL
  · rcases (h _ hβ).2 hlocal n hn with hL | hdecl
    · exact hsafe.isLocal hL
    · -- a promoted assignment: the read is in scope of the statement with its identity
      obtain ⟨γ, hγ, hid, hn'⟩ := hsafe.declared β.id hdecl
      rcases (closed_stmts [] b).origin n Γ hread γ hγ with hnil | ⟨vs, Θ, hbind⟩
      · contradiction
      · have heq : Occurrence.bind γ vs Θ = .bind β values Δ :=
          eq_of_id hd hbind hβ (by simp [Occurrence.id?, hid]) rfl
        cases heq
        exact ⟨β, hγ, hlocal, hn⟩

/-- What holds all through a walk. -/
structure GoodBlock (c : Context) (L : String → Prop) (b : Block) : Prop where
  good : AllGood c L (occurrences b)
  distinct : Distinct b

theorem goodBlock_step {c : Context} {L : String → Prop} {p : Pass} (hp : Keeps c L p)
    {b b' : Block} (hstep : BlockStep p b b') (h : GoodBlock c L b) : GoodBlock c L b' := by
  have hnone : Supports c L [] := by simp [Supports]
  obtain ⟨hgood, hcount⟩ := (respects_of_keeps hp).block_step hstep [] hnone h.good
  refine ⟨hgood, ?_⟩
  rw [Distinct, List.nodup_iff_count_le_one]
  intro d
  calc ((occurrences b').filterMap Occurrence.id?).count d
      ≤ ((occurrences b).filterMap Occurrence.id?).count d := hcount d
    _ ≤ 1 := List.nodup_iff_count_le_one.mp h.distinct d

/-- A block that is ready for another walk, with the reads of the names `M` covered. -/
structure Ready (M : String → Prop) (b : Block) : Prop where
  covered : Covered M b
  isScoped : Scoped b
  distinct : Distinct b

/-- A walk of a pass with good hooks leaves a block that is ready for the next. -/
theorem ready_walk {M : String → Prop} (options : Options) {b : Block} {p : Pass}
    (hp : Keeps (tableOf options b) (fun n => M n ∨ IsLocal b n) p) (h : Ready M b) :
    Ready M (p.walk b).1 := by
  have hgood := allGood_of_scoped h.covered h.isScoped options h.distinct
  -- the table stays that of `b` while the block changes
  obtain ⟨hgood', hd⟩ : GoodBlock (tableOf options b) (fun n => M n ∨ IsLocal b n) (p.walk b).1 :=
    Pass.walk_preserves (fun _ _ hstep => goodBlock_step hp hstep) ⟨hgood, h.distinct⟩
  have hcovered := covered_of_allGood hgood' hd
  refine ⟨?_, ?_, hd⟩
  · intro n Γ hn hM
    exact hcovered n Γ hn (.inl (.inl hM))
  · intro n Γ hn hlocal
    exact hcovered n Γ hn (.inr hlocal)

theorem ready_simplify {M : String → Prop} (options : Options) {b : Block} (h : Ready M b) :
    Ready M (b.simplify options none).1 := by
  refine Pipeline.run_preserves (Pipeline.standard options none) ?_ h
  intro r hr b hb
  simp only [Pipeline.standard, Option.toList_none, List.map_nil, List.nil_append,
    List.mem_cons, List.not_mem_nil, or_false] at hr
  rcases hr with rfl | rfl
  · exact ready_walk options keeps_folding hb
  · exact ready_walk options (keeps_temporaries (coherent_tableOf options b)) hb

end Scoping

open Scoping

/-- Simplifying without a mapping strands no read: whatever is a `local` afterwards, or was one
before, is read in scope of a `local` that declares it. -/
theorem scoped_simplify (options : Options) (b : Block) (hs : Scoped b) (hd : Distinct b) :
    Scoped (b.simplify options none).1 ∧ Covered (IsLocal b) (b.simplify options none).1 := by
  have h := ready_simplify options (M := IsLocal b) ⟨hs, hs, hd⟩
  exact ⟨h.isScoped, h.covered⟩

/-- `repeat _t = inst[pc]; local x = stk[_t] until x`: the temporary is inlined, and `x` is read
below its block. -/
def Scoping.loop : Block :=
  [.repeatLoop
    [.assign 1 [.name "_t"] [.index (.name "inst") (.name "pc")],
     .declare 2 ["x"] [.index (.name "stk") (.name "_t")]]
    (.name "x")]

theorem Scoping.occurrences_loop :
    let t : Binding := ⟨1, false, ["_t"]⟩
    let x : Binding := ⟨2, true, ["x"]⟩
    occurrences loop =
      [.bind t [.index (.name "inst") (.name "pc")] [], .read "inst" [], .read "pc" [],
       .bind x [.index (.name "stk") (.name "_t")] [t], .read "stk" [t], .read "_t" [t],
       .read "x" [x, t]] := rfl

theorem scoped_simplify_loop :
    Scoped loop ∧ Distinct loop ∧ Scoped (loop.simplify .standard none).1 ∧
      Covered (IsLocal loop) (loop.simplify .standard none).1 := by
  have hs : Scoped loop := by
    rintro n Γ hread ⟨β, values, Δ, hbind, hlocal, hn⟩
    rw [occurrences_loop] at hread hbind
    simp only [List.mem_cons, List.not_mem_nil, Occurrence.bind.injEq, reduceCtorEq, or_false,
      false_or] at hbind
    -- the only `local` is that of `x`
    have hx : n = "x" := by
      rcases hbind with ⟨rfl, -, -⟩ | ⟨rfl, -, -⟩
      · contradiction
      · exact List.mem_singleton.mp hn
    subst hx
    simp at hread
    subst hread
    exact ⟨_, List.mem_cons_self, rfl, List.mem_singleton_self _⟩
  have hd : Distinct loop := by
    rw [Distinct, occurrences_loop]
    decide
  exact ⟨hs, hd, scoped_simplify .standard loop hs hd⟩

end Devirt
