import Devirt.Proofs.Renaming
import Devirt.Recovery

set_option autoImplicit false

/-! # Alike trees are simplified alike

Two runs over alike blocks go side by side: each hook answers alike (`AlikePass`), so each slot
settles after the same number of replacements, with the same limits reached, and each walk
leaves alike blocks and the same counts.  In the end the reports are equal and the fingerprints
are the same text. -/

namespace Devirt

namespace Renaming

variable {r : Renaming}

/-! ## Alike answers -/

theorem rel_map {α β γ δ : Type} {R : α → β → Prop} {S : γ → δ → Prop} {x : Option α}
    {y : Option β} (h : Option.Rel R x y) {f : α → γ} {g : β → δ}
    (hfg : ∀ a b, R a b → S (f a) (g b)) : Option.Rel S (x.map f) (y.map g) := by
  cases h with
  | none => exact .none
  | some hab => exact .some (hfg _ _ hab)

/-- Passes whose hooks answer alike on alike nodes. -/
structure AlikePass (r : Renaming) (p p' : Pass) : Prop where
  binary : ∀ (op : BinaryOp) {l l' k k' : Expr}, r.AlikeExpr l l' → r.AlikeExpr k k' →
    r.AlikeValue (p.binary op l k) (p'.binary op l' k')
  unary : ∀ (op : UnaryOp) {e e' : Expr}, r.AlikeExpr e e' →
    r.AlikeValue (p.unary op e) (p'.unary op e')
  member : ∀ {o o' : Expr} (field : String), r.AlikeExpr o o' →
    r.AlikeValue (p.member o field) (p'.member o' field)
  index : ∀ {t t' k k' : Expr}, r.AlikeExpr t t' → r.AlikeExpr k k' →
    r.AlikeValue (p.index t k) (p'.index t' k')
  call : ∀ {f f' : Expr} {args args' : List Expr}, r.AlikeExpr f f' →
    List.Forall₂ r.AlikeExpr args args' →
    Option.Rel (fun c c' => r.AlikeExpr c.1 c'.1 ∧ List.Forall₂ r.AlikeExpr c.2 c'.2)
      (p.call f args) (p'.call f' args')
  declare : ∀ (id : NodeId) (names : List String) {values values' : List Expr},
    List.Forall₂ r.AlikeExpr values values' →
    Option.Rel r.AlikeStmt (p.declare id names values)
      (p'.declare (r.id id) (names.map r.name) values')
  assign : ∀ (id : NodeId) {targets targets' values values' : List Expr},
    List.Forall₂ r.AlikeExpr targets targets' → List.Forall₂ r.AlikeExpr values values' →
    Option.Rel r.AlikeStmt (p.assign id targets values) (p'.assign (r.id id) targets' values')
  block : ∀ {b b' : Block}, r.Alike b b' → Option.Rel r.Alike (p.block b) (p'.block b')

namespace AlikePass

variable {p p' : Pass} (h : r.AlikePass p p')

include h

theorem onExpr {e e' : Expr} (he : r.AlikeExpr e e') :
    r.AlikeValue (p.onExpr e) (p'.onExpr e') := by
  cases he with
  | binary op hl hk => exact h.binary op hl hk
  | unary op he => exact h.unary op he
  | member field ho => exact h.member field ho
  | index ht hk => exact h.index ht hk
  | call hf has => exact rel_map (h.call hf has) fun _ _ hc => .call hc.1 hc.2
  | _ => exact .none

theorem onStmt {s s' : Stmt} (hs : r.AlikeStmt s s') :
    Option.Rel r.AlikeStmt (p.onStmt s) (p'.onStmt s') := by
  cases hs with
  | declare id names hvs => exact h.declare id names hvs
  | assign id hts hvs => exact h.assign id hts hvs
  | call hf has => exact rel_map (h.call hf has) fun _ _ hc => .call hc.1 hc.2
  | _ => exact .none

end AlikePass

/-! ## Folding -/

theorem isLiteral_alike {e e' : Expr} (h : r.AlikeExpr e e') : e'.isLiteral = e.isLiteral := by
  cases h <;> rfl

theorem isArrayItem_alike {e e' : Entry} (h : r.AlikeEntry e e') :
    Folding.isArrayItem e' = Folding.isArrayItem e := by
  cases h with
  | positional hv => cases hv <;> rfl
  | keyed hk hv => rfl

theorem all_isArrayItem_alike {es es' : List Entry} (h : List.Forall₂ r.AlikeEntry es es') :
    es'.all Folding.isArrayItem = es.all Folding.isArrayItem := by
  induction h with
  | nil => rfl
  | cons he _ ih => rw [List.all_cons, List.all_cons, ih, isArrayItem_alike he]

theorem folding_alike : r.AlikePass Folding.pass Folding.pass where
  binary op l l' k k' hl hk := by
    cases hl with
    | number x x' =>
        show r.AlikeValue (if k.isLiteral then none else _) (if k'.isLiteral then none else _)
        rw [isLiteral_alike hk]
        split
        · exact .none
        · cases op.converse with
          | none => exact .none
          | some op' => exact .some (.binary op' hk (.number x x'))
    | _ => exact .none
  unary op e e' he := by
    cases op with
    | neg =>
        cases he with
        | number x x' => exact .some (.number _ _)
        | _ => exact .none
    | len =>
        cases he with
        | table hes =>
            show r.AlikeValue (if _ then _ else none) (if _ then _ else none)
            rw [all_isArrayItem_alike hes]
            split
            · exact .some (.number _ _)
            · exact .none
        | _ => exact .none
    | not => exact .none
  member _ _ := .none
  index _ _ := .none
  call _ _ := .none
  declare _ _ _ _ _ := .none
  assign _ _ _ _ _ _ _ := .none
  block _ := .none

/-! ## Indirection tables -/

/-- The name is at the root of a path of the mapping, so it comes into the tree when the key of the
path is replaced. -/
def Introduces (paths : Paths) (n : String) : Prop :=
  ∃ key rest, paths.get? key = some (n :: rest) ∧ Indirection.integer? n = none

/-- Two paths from a name and from its new name, with the same fields. -/
def AlikePath (r : Renaming) (p p' : List String) : Prop :=
  ∃ n fields, p = n :: fields ∧ p' = r.name n :: fields

theorem pathOf_alike : {e e' : Expr} → r.AlikeExpr e e' →
    Option.Rel r.AlikePath (Indirection.pathOf? e) (Indirection.pathOf? e')
  | _, _, .name n => .some ⟨n, [], rfl, rfl⟩
  | _, _, .member field ho => by
      refine rel_map (pathOf_alike ho) ?_
      rintro p p' ⟨n, fields, rfl, rfl⟩
      exact ⟨n, fields ++ [field], rfl, rfl⟩
  | _, _, .nil | _, _, .bool .. | _, _, .number .. | _, _, .string .. | _, _, .vararg
  | _, _, .binary .. | _, _, .unary .. | _, _, .index .. | _, _, .call .. | _, _, .table ..
  | _, _, .function .. => .none

theorem select_alike {e e' : Expr} (h : r.AlikeExpr e e') (fields : List String) :
    r.AlikeExpr (Indirection.select e fields) (Indirection.select e' fields) := by
  induction fields generalizing e e' with
  | nil => exact h
  | cons field fields ih => exact ih (.member field h)

theorem target_alike {paths : Paths} (hintro : ∀ n, Introduces paths n → r.name n = n)
    {key : String} {path : List String} (h : paths.get? key = some path) :
    r.AlikeValue (Indirection.target path) (Indirection.target path) := by
  unfold Indirection.target
  cases path with
  | nil => exact .none
  | cons first rest =>
      cases hint : Indirection.integer? first with
      | some n =>
          simp only [hint]
          exact .some (AlikeExpr.number _ _)
      | none =>
          simp only [hint]
          have hname := AlikeExpr.name (r := r) first
          rw [hintro first ⟨key, rest, h, hint⟩] at hname
          exact .some (select_alike hname rest)

/-- A selection is its own target after the renaming exactly when it was before. -/
theorem alikePath_eq_iff {paths : Paths} (hintro : ∀ n, Introduces paths n → r.name n = n)
    {key : String} {path here here' : List String} (h : paths.get? key = some path)
    (hint : Indirection.integer? (path.headD "") = none) (hpath : r.AlikePath here here') :
    here' = path ↔ here = path := by
  obtain ⟨n, fields, rfl, rfl⟩ := hpath
  constructor
  · -- the new name is at the root of the path, so it is its own new name: `n` is that name
    rintro rfl
    have hfix := hintro (r.name n) ⟨key, fields, h, hint⟩
    rw [r.name_injective hfix]
  · rintro rfl
    rw [hintro n ⟨key, fields, h, hint⟩]

theorem member_alike {paths : Paths} (hintro : ∀ n, Introduces paths n → r.name n = n)
    {o o' : Expr} (field : String) (ho : r.AlikeExpr o o') :
    r.AlikeValue (Indirection.member paths o field) (Indirection.member paths o' field) := by
  unfold Indirection.member
  cases hget : paths.get? field with
  | none => exact .none
  | some path =>
      have htarget := target_alike hintro hget
      have hpath := pathOf_alike (.member field ho)
      generalize Indirection.pathOf? (.member o field) = here at hpath
      generalize Indirection.pathOf? (.member o' field) = here' at hpath
      cases hint : Indirection.integer? (path.headD "") with
      | some n =>
          simp only [hint]
          exact htarget
      | none =>
          cases hpath with
          | none =>
              simp only [hint]
              exact htarget
          | some hp =>
              simp only [hint, alikePath_eq_iff hintro hget hint hp]
              split
              · exact .none
              · exact htarget

theorem indirection_alike {paths : Paths} (hintro : ∀ n, Introduces paths n → r.name n = n) :
    r.AlikePass (Indirection.pass paths) (Indirection.pass paths) where
  binary _ _ _ _ _ _ _ := .none
  unary _ _ _ _ := .none
  member field ho := member_alike hintro field ho
  index _ _ := .none
  call _ _ := .none
  declare _ _ _ _ _ := .none
  assign _ _ _ _ _ _ _ := .none
  block _ := .none

/-! ## Temporaries -/

/-- What a mapping and the options know by name keeps its name, and a temporary becomes a
temporary. -/
structure Suits (r : Renaming) (options : Options) (paths : Option Paths) : Prop where
  registerHelper : r.name options.registerHelper = options.registerHelper
  introduced : ∀ given ∈ paths, ∀ n, Introduces given n → r.name n = n
  tempPrefix : ∀ n, options.tempPrefix.toList.isPrefixOf (r.name n).toList =
    options.tempPrefix.toList.isPrefixOf n.toList

section

open Temporaries

variable {options : Options} {u u' : UsageTable}

/-- The entries of a temporary. -/
theorem temporary_alike {paths : Option Paths} (hsuits : r.Suits options paths)
    (hu : r.AlikeUsage u u') (n : String) :
    Option.Rel r.AlikeVariable (Context.temporary ⟨options, u⟩ n)
      (Context.temporary ⟨options, u'⟩ (r.name n)) := by
  unfold Context.temporary
  simp only [hsuits.tempPrefix n]
  split
  · have h := hu n
    generalize u.get? n = v at h
    generalize u'.get? (r.name n) = v' at h
    cases h with
    | none => exact .none
    | some hv =>
        simp only [Option.filter, ← hv.escapes]
        split
        · exact .some hv
        · exact .none
  · exact .none

theorem inlinable_alike {n : String} {v v' : Variable} (hv : r.AlikeVariable v v')
    {e e' : Expr} (he : r.AlikeExpr e e') :
    Context.inlinable (r.name n) v' e' = Context.inlinable n v e := by
  unfold Context.inlinable
  rw [← hv.assignments, ← hv.reads]
  have hmentions := mentions_expr n he
  -- which values are inlined is told by their shape and the names in them
  cases he with
  | name m => simp only [bne, name_beq]
  | binary op hl hk => simp only [hmentions]
  | index ht hk =>
      cases ht with
      | name t =>
          cases hk with
          | name k => simp only [hmentions]
          | _ => rfl
      | _ => rfl
  | _ => rfl

theorem substitute_alike {paths : Option Paths} (hsuits : r.Suits options paths)
    (hu : r.AlikeUsage u u') {e e' : Expr} (he : r.AlikeExpr e e') :
    r.AlikeValue (Context.substitute ⟨options, u⟩ e) (Context.substitute ⟨options, u'⟩ e') := by
  cases he with
  | name n =>
      have h := temporary_alike hsuits hu n
      simp only [Context.substitute]
      generalize Context.temporary ⟨options, u⟩ n = v at h
      generalize Context.temporary ⟨options, u'⟩ (r.name n) = v' at h
      cases h with
      | none => exact .none
      | @some v v' hv =>
          -- the two entries are taken apart, for their values to be compared
          have hvalue := hv.value
          obtain ⟨reads, assignments, declaration, value, escapes⟩ := v
          obtain ⟨reads', assignments', declaration', value', escapes'⟩ := v'
          simp only at hvalue ⊢
          cases hvalue with
          | none => exact .none
          | some hx =>
              simp only [Option.filter, inlinable_alike hv hx]
              split
              · exact .some hx
              · exact .none
  | _ => exact .none

/-- Two expressions against two alike ones. -/
def AlikeTwo (r : Renaming) (p q : Expr × Expr) : Prop :=
  r.AlikeExpr p.1 q.1 ∧ r.AlikeExpr p.2 q.2

theorem substitutePair_alike {paths : Option Paths} (hsuits : r.Suits options paths)
    (hu : r.AlikeUsage u u') {l l' k k' : Expr} (hl : r.AlikeExpr l l') (hk : r.AlikeExpr k k') :
    Option.Rel r.AlikeTwo (Context.substitutePair ⟨options, u⟩ l k)
      (Context.substitutePair ⟨options, u'⟩ l' k') := by
  have hx := substitute_alike hsuits hu hl
  have hy := substitute_alike hsuits hu hk
  unfold Context.substitutePair
  generalize Context.substitute ⟨options, u⟩ l = x at hx
  generalize Context.substitute ⟨options, u'⟩ l' = x' at hx
  generalize Context.substitute ⟨options, u⟩ k = y at hy
  generalize Context.substitute ⟨options, u'⟩ k' = y' at hy
  cases hx with
  | none =>
      cases hy with
      | none => exact .none
      | some hy => exact .some ⟨hl, hy⟩
  | some hx =>
      cases hy with
      | none => exact .some ⟨hx, hk⟩
      | some hy => exact .some ⟨hx, hy⟩

theorem helper_iff {paths : Option Paths} (hsuits : r.Suits options paths) (n : String) :
    r.name n = options.registerHelper ↔ n = options.registerHelper := by
  conv_lhs => rw [← hsuits.registerHelper]
  exact r.name_injective.eq_iff

/-- The rule for calls is for two arguments. -/
theorem call_of_length {c : Context} {f : Expr} {args : List Expr} (h : args.length ≠ 2) :
    c.call f args = none := by
  unfold Context.call
  split
  · simp at h
  · rfl

theorem call_alike {paths : Option Paths} (hsuits : r.Suits options paths)
    (hu : r.AlikeUsage u u') {f f' : Expr} {args args' : List Expr} (hf : r.AlikeExpr f f')
    (has : List.Forall₂ r.AlikeExpr args args') :
    Option.Rel (fun c c' => r.AlikeExpr c.1 c'.1 ∧ List.Forall₂ r.AlikeExpr c.2 c'.2)
      (Context.call ⟨options, u⟩ f args) (Context.call ⟨options, u'⟩ f' args') := by
  by_cases hlen : args.length = 2
  · obtain ⟨a, b, rfl⟩ := List.length_eq_two.mp hlen
    cases has with
    | cons ha has =>
        cases has with
        | cons hb has =>
            cases has
            cases hf with
            | name n =>
                cases ha with
                | name a =>
                    cases hb with
                    | name b =>
                        have hpair := substitutePair_alike hsuits hu (.name a) (.name b)
                        simp only [Context.call, helper_iff hsuits]
                        split
                        · exact rel_map hpair fun p q hpq =>
                            ⟨.name n, .cons hpq.1 (.cons hpq.2 .nil)⟩
                        · exact .none
                    | _ => exact .none
                | _ => exact .none
            | _ => exact .none
  · have hlen' : args'.length ≠ 2 := by rwa [← has.length_eq]
    rw [call_of_length hlen, call_of_length hlen']
    exact .none

theorem id_beq (d : Option NodeId) (id : NodeId) :
    (d.map r.id == some (r.id id)) = (d == some id) := by
  cases d with
  | none => rfl
  | some d =>
      by_cases h : d = id
      · simp [h]
      · have hne : r.id d ≠ r.id id := fun hc => h (r.id_injective hc)
        simp [h, hne]

theorem declaredBy_alike {paths : Option Paths} (hsuits : r.Suits options paths)
    (hu : r.AlikeUsage u u') (id : NodeId) {e e' : Expr} (he : r.AlikeExpr e e') :
    Context.declaredBy ⟨options, u'⟩ (r.id id) e' = Context.declaredBy ⟨options, u⟩ id e := by
  cases he with
  | name n =>
      have h := temporary_alike hsuits hu n
      simp only [Context.declaredBy]
      generalize Context.temporary ⟨options, u⟩ n = v at h
      generalize Context.temporary ⟨options, u'⟩ (r.name n) = v' at h
      cases h with
      | none => rfl
      | some hv =>
          simp only [Option.bind_some, hv.declaration]
          exact id_beq _ id
  | _ => rfl

theorem names_alike {es es' : List Expr} (h : List.Forall₂ r.AlikeExpr es es') :
    es'.filterMap Expr.name? = (es.filterMap Expr.name?).map r.name := by
  induction h with
  | nil => rfl
  | cons he _ ih =>
      rcases name_or_other he with ⟨n, rfl, rfl⟩ | ⟨hn, hn'⟩
      · simp [Expr.name?, ih]
      · simp [hn, hn', ih]

theorem isDead_alike (hu : r.AlikeUsage u u') (names : List String) :
    Context.isDead ⟨options, u'⟩ (names.map r.name) = Context.isDead ⟨options, u⟩ names := by
  unfold Context.isDead
  rw [List.all_map]
  congr 1
  funext n
  have h := hu n
  simp only [Function.comp]
  generalize u.get? n = v at h
  generalize u'.get? (r.name n) = v' at h
  cases h with
  | none => rfl
  | some hv => simp only [Option.map_some, hv.reads]

theorem isDeadStmt_alike (hu : r.AlikeUsage u u') {s s' : Stmt} (hs : r.AlikeStmt s s') :
    Context.isDeadStmt ⟨options, u'⟩ s' = Context.isDeadStmt ⟨options, u⟩ s := by
  cases hs with
  | declare id names hvs => exact isDead_alike hu names
  | _ => rfl

theorem all_declaredBy_alike {paths : Option Paths} (hsuits : r.Suits options paths)
    (hu : r.AlikeUsage u u') (id : NodeId) {es es' : List Expr}
    (h : List.Forall₂ r.AlikeExpr es es') :
    (!es'.isEmpty && es'.all (Context.declaredBy ⟨options, u'⟩ (r.id id))) =
      (!es.isEmpty && es.all (Context.declaredBy ⟨options, u⟩ id)) := by
  have hall : es'.all (Context.declaredBy ⟨options, u'⟩ (r.id id)) =
      es.all (Context.declaredBy ⟨options, u⟩ id) := by
    induction h with
    | nil => rfl
    | cons he _ ih =>
        rw [List.all_cons, List.all_cons, ih, declaredBy_alike hsuits hu id he]
  rw [hall]
  cases h <;> rfl

theorem assign_alike {paths : Option Paths} (hsuits : r.Suits options paths)
    (hu : r.AlikeUsage u u') (id : NodeId) {ts ts' vs vs' : List Expr}
    (hts : List.Forall₂ r.AlikeExpr ts ts') (hvs : List.Forall₂ r.AlikeExpr vs vs') :
    Option.Rel r.AlikeStmt (Context.assign ⟨options, u⟩ id ts vs)
      (Context.assign ⟨options, u'⟩ (r.id id) ts' vs') := by
  unfold Context.assign
  rw [all_declaredBy_alike hsuits hu id hts, names_alike hts]
  split
  · exact .some (.declare id _ hvs)
  · -- a value is inlined for a single target and a single value only
    cases hts with
    | nil => exact .none
    | cons ht hts =>
        cases hts with
        | cons _ _ => exact .none
        | nil =>
            cases hvs with
            | nil => exact .none
            | cons hv hvs =>
                cases hvs with
                | cons _ _ => exact .none
                | nil =>
                    exact rel_map (substitute_alike hsuits hu hv) fun _ _ hx =>
                      .assign id (.cons ht .nil) (.cons hx .nil)

theorem block_alike (hu : r.AlikeUsage u u') {b b' : Block} (hb : r.Alike b b') :
    Option.Rel r.Alike (Context.block ⟨options, u⟩ b) (Context.block ⟨options, u'⟩ b') := by
  have hany : b'.any (Context.isDeadStmt ⟨options, u'⟩) =
      b.any (Context.isDeadStmt ⟨options, u⟩) := by
    induction hb with
    | nil => rfl
    | cons hs _ ih => rw [List.any_cons, List.any_cons, ih, isDeadStmt_alike hu hs]
  unfold Context.block
  rw [hany]
  split
  · refine .some (List.rel_filter (fun s s' hs => ?_) hb)
    simp only [isDeadStmt_alike hu hs]
  · exact .none

theorem temporaries_alike {paths : Option Paths} (hsuits : r.Suits options paths)
    (hu : r.AlikeUsage u u') :
    r.AlikePass (Context.pass ⟨options, u⟩) (Context.pass ⟨options, u'⟩) where
  binary op _ _ _ _ hl hk :=
    rel_map (substitutePair_alike hsuits hu hl hk) fun _ _ hp => .binary op hp.1 hp.2
  unary _ _ _ _ := .none
  member _ _ := .none
  index ht hk := rel_map (substitutePair_alike hsuits hu ht hk) fun _ _ hp => .index hp.1 hp.2
  call hf has := call_alike hsuits hu hf has
  declare _ _ _ _ _ := .none
  assign id _ _ _ _ hts hvs := assign_alike hsuits hu id hts hvs
  block hb := block_alike hu hb

end

/-! ## Walks -/

open Walk

/-- Alike trees in one state of a walk. -/
def Abreast {α : Type} (R : α → α → Prop) (x y : α × Progress) : Prop := R x.1 y.1 ∧ x.2 = y.2

/-- Visits that keep alike trees abreast. -/
def VisitsAbreast {α : Type} (R : α → α → Prop) (f g : α → Progress → α × Progress) : Prop :=
  ∀ x y w, R x y → Abreast R (f x w) (g y w)

section

variable {α β : Type} {R : α → α → Prop} {S : β → β → Prop}

theorem Abreast.map {x y : α × Progress} (h : Abreast R x y) {f g : α → β}
    (hfg : ∀ a b, R a b → S (f a) (g b)) : Abreast S (f x.1, x.2) (g y.1, y.2) :=
  ⟨hfg _ _ h.1, h.2⟩

/-- One visit after the other. -/
theorem Abreast.seq {γ : Type} {T : γ → γ → Prop} {x y : α × Progress} (h : Abreast R x y)
    {v v' : Progress → β × Progress} (hv : ∀ w, Abreast S (v w) (v' w)) {f g : α → β → γ}
    (hfg : ∀ a b c d, R a b → S c d → T (f a c) (g b d)) :
    Abreast T (f x.1 (v x.2).1, (v x.2).2) (g y.1 (v' y.2).1, (v' y.2).2) := by
  obtain ⟨hxy, hstate⟩ := h
  have hv := hv x.2
  rw [← hstate]
  exact ⟨hfg _ _ _ _ hxy hv.1, hv.2⟩

/-- A slot settles abreast if the slots below and the hooks do. -/
theorem settle_abreast {visit visit' : α → Progress → α × Progress} {hook hook' : α → Option α}
    (hvisit : VisitsAbreast R visit visit')
    (hhook : ∀ x y, R x y → Option.Rel R (hook x) (hook' y)) (n : Nat) :
    VisitsAbreast R (settle visit hook n) (settle visit' hook' n) := by
  -- On the number of rounds.  Both slots halt, or both hooks answer, or neither does.
  induction n with
  | zero => exact fun x y w h => ⟨h, rfl⟩
  | succ n ih =>
      intro x y w h
      have hv := hvisit x y w h
      rw [settle, settle]
      generalize visit x w = v at hv
      generalize visit' y w = v' at hv
      obtain ⟨x', w'⟩ := v
      obtain ⟨y', w''⟩ := v'
      obtain ⟨hxy, rfl⟩ : R x' y' ∧ w' = w'' := hv
      simp only
      split
      · exact ⟨hxy, rfl⟩
      · have hk := hhook x' y' hxy
        generalize hook x' = o at hk
        generalize hook' y' = o' at hk
        cases hk with
        | none => exact ⟨hxy, rfl⟩
        | some hz => exact ih _ _ _ hz

theorem visitList_abreast {f g : α → Progress → α × Progress} (h : VisitsAbreast R f g) :
    VisitsAbreast (List.Forall₂ R) (visitList f) (visitList g) := by
  intro xs ys w hxy
  induction hxy generalizing w with
  | nil => exact ⟨.nil, rfl⟩
  | @cons x y xs ys hx _ ih =>
      exact (h x y w hx).seq ih fun _ _ _ _ => .cons

end

section

variable {onExpr onExpr' : Expr → Progress → Expr × Progress}
  {onBlock onBlock' : Block → Progress → Block × Progress}
  (hE : VisitsAbreast r.AlikeExpr onExpr onExpr')
  (hB : VisitsAbreast r.Alike onBlock onBlock')

include hE in
theorem visitEntry_abreast :
    VisitsAbreast r.AlikeEntry (visitEntry onExpr) (visitEntry onExpr') := by
  intro e e' w h
  cases h with
  | positional hv => exact (hE _ _ w hv).map fun _ _ => .positional
  | keyed hk hv => exact (hE _ _ w hk).seq (fun w => hE _ _ w hv) fun _ _ _ _ => .keyed

include hE hB

theorem visitClause_abreast :
    VisitsAbreast r.AlikeClause (visitClause onExpr onBlock) (visitClause onExpr' onBlock') := by
  intro c c' w h
  cases h with
  | mk hc hb => exact (hE _ _ w hc).seq (fun w => hB _ _ w hb) fun _ _ _ _ => .mk

theorem visitExpr_abreast :
    VisitsAbreast r.AlikeExpr (visitExpr onExpr onBlock) (visitExpr onExpr' onBlock') := by
  intro e e' w h
  cases h with
  | binary op hl hk => exact (hE _ _ w hl).seq (fun w => hE _ _ w hk) fun _ _ _ _ => .binary op
  | unary op he => exact (hE _ _ w he).map fun _ _ => .unary op
  | member field ho => exact (hE _ _ w ho).map fun _ _ => AlikeExpr.member field
  | index ht hk => exact (hE _ _ w ht).seq (fun w => hE _ _ w hk) fun _ _ _ _ => .index
  | call hf has =>
      exact (hE _ _ w hf).seq (fun w => visitList_abreast hE _ _ w has) fun _ _ _ _ => .call
  | table hes => exact (visitList_abreast (visitEntry_abreast hE) _ _ w hes).map fun _ _ => .table
  | function params variadic hb => exact (hB _ _ w hb).map fun _ _ => .function params variadic
  | nil => exact ⟨.nil, rfl⟩
  | bool b b' => exact ⟨.bool b b', rfl⟩
  | number x x' => exact ⟨.number x x', rfl⟩
  | string s s' => exact ⟨.string s s', rfl⟩
  | vararg => exact ⟨.vararg, rfl⟩
  | name n => exact ⟨.name n, rfl⟩

theorem visitStmt_abreast :
    VisitsAbreast r.AlikeStmt (visitStmt onExpr onBlock) (visitStmt onExpr' onBlock') := by
  intro s s' w h
  have hL := visitList_abreast hE
  have hC := visitList_abreast (visitClause_abreast hE hB)
  cases h with
  | declare id names hvs => exact (hL _ _ w hvs).map fun _ _ => .declare id names
  | assign id hts hvs =>
      exact (hL _ _ w hts).seq (fun w => hL _ _ w hvs) fun _ _ _ _ => .assign id
  | call hf has => exact (hE _ _ w hf).seq (fun w => hL _ _ w has) fun _ _ _ _ => .call
  | scope hb => exact (hB _ _ w hb).map fun _ _ => .scope
  | branch hcs => exact (hC _ _ w hcs).map fun _ _ => AlikeStmt.branch
  | branchElse hcs hb =>
      exact (hC _ _ w hcs).seq (fun w => hB _ _ w hb) fun _ _ _ _ => AlikeStmt.branchElse
  | whileLoop hc hb => exact (hE _ _ w hc).seq (fun w => hB _ _ w hb) fun _ _ _ _ => .whileLoop
  | repeatLoop hb hc => exact (hB _ _ w hb).seq (fun w => hE _ _ w hc) fun _ _ _ _ => .repeatLoop
  | numericFor var hs hl hb =>
      have hbounds := (hE _ _ w hs).seq (T := r.AlikeTwo) (f := Prod.mk) (g := Prod.mk)
        (fun w => hE _ _ w hl) fun _ _ _ _ hs hl => ⟨hs, hl⟩
      exact hbounds.seq (T := r.AlikeStmt) (fun w => hB _ _ w hb)
        (f := fun p b => Stmt.numericFor var p.1 p.2 none b)
        (g := fun p b => Stmt.numericFor (r.name var) p.1 p.2 none b)
        fun _ _ _ _ hp hb => .numericFor var hp.1 hp.2 hb
  | numericForStep var hs hl ht hb =>
      have hbounds := (hE _ _ w hs).seq (T := r.AlikeTwo) (f := Prod.mk) (g := Prod.mk)
        (fun w => hE _ _ w hl) fun _ _ _ _ hs hl => ⟨hs, hl⟩
      have hstep := hbounds.seq (T := fun p q => r.AlikeTwo p.1 q.1 ∧ r.AlikeExpr p.2 q.2)
        (f := Prod.mk) (g := Prod.mk) (fun w => hE _ _ w ht) fun _ _ _ _ hp ht => ⟨hp, ht⟩
      exact hstep.seq (T := r.AlikeStmt) (fun w => hB _ _ w hb)
        (f := fun p b => Stmt.numericFor var p.1.1 p.1.2 (some p.2) b)
        (g := fun p b => Stmt.numericFor (r.name var) p.1.1 p.1.2 (some p.2) b)
        fun _ _ _ _ hp hb => .numericForStep var hp.1.1 hp.1.2 hp.2 hb
  | genericFor names hes hb =>
      exact (hL _ _ w hes).seq (fun w => hB _ _ w hb) fun _ _ _ _ => .genericFor names
  | ret hvs => exact (hL _ _ w hvs).map fun _ _ => .ret
  | brk => exact ⟨.brk, rfl⟩

end

/-- Walks over alike trees, with as much fuel at the same depth, stay abreast. -/
theorem walk_abreast {p p' : Pass} (hp : r.AlikePass p p') (fuel : Nat) :
    (∀ depth, VisitsAbreast r.AlikeExpr (walkExpr p fuel depth) (walkExpr p' fuel depth)) ∧
      (∀ depth, VisitsAbreast r.AlikeStmt (walkStmt p fuel depth) (walkStmt p' fuel depth)) ∧
      ∀ depth, VisitsAbreast r.Alike (walkBlock p fuel depth) (walkBlock p' fuel depth) := by
  -- The limits are on fuel, depth and replacements, which the walks have in common: they stop
  -- together.
  induction fuel with
  | zero =>
      refine ⟨?_, ?_, ?_⟩
      · intro depth x y w h
        rw [walkExpr, walkExpr]
        exact ⟨h, rfl⟩
      · intro depth x y w h
        rw [walkStmt, walkStmt]
        exact ⟨h, rfl⟩
      · intro depth x y w h
        rw [walkBlock, walkBlock]
        exact ⟨h, rfl⟩
  | succ fuel ih =>
      obtain ⟨hE, hS, hB⟩ := ih
      refine ⟨?_, ?_, ?_⟩
      · intro depth x y w h
        have hvisit := visitExpr_abreast (hE (depth + 1)) (hB (depth + 1))
        rw [walkExpr, walkExpr]
        split
        · exact ⟨h, rfl⟩
        · split
          · exact ⟨h, rfl⟩
          · exact settle_abreast hvisit (fun _ _ => hp.onExpr) maxRounds x y w h
      · intro depth x y w h
        have hvisit := visitStmt_abreast (hE depth) (hB depth)
        rw [walkStmt, walkStmt]
        exact settle_abreast hvisit (fun _ _ => hp.onStmt) maxRounds x y w h
      · intro depth x y w h
        have hvisit := visitList_abreast (hS depth)
        rw [walkBlock, walkBlock]
        exact settle_abreast hvisit (fun _ _ => hp.block) maxRounds x y w h

theorem pass_abreast {p p' : Pass} (hp : r.AlikePass p p') {b b' : Block} (h : r.Alike b b') :
    Abreast r.Alike (p.walk b) (p'.walk b') := by
  unfold Pass.walk
  rw [enoughFuel_alike h]
  exact (walk_abreast hp _).2.2 0 b b' .start h

/-! ## Pipelines -/

/-- A stage whose passes for alike blocks are alike. -/
def AlikeStage (r : Renaming) (s : Stage) : Prop :=
  ∀ b b', r.Alike b b' → r.AlikePass (s.prepare b) (s.prepare b')

theorem round_alike {rs : List Stage} (hrs : ∀ s ∈ rs, r.AlikeStage s) {b b' : Block}
    (h : r.Alike b b') (n : Nat) :
    r.Alike (Pipeline.round rs b n).1 (Pipeline.round rs b' n).1 ∧
      (Pipeline.round rs b n).2 = (Pipeline.round rs b' n).2 := by
  induction rs generalizing b b' n with
  | nil => exact ⟨h, rfl⟩
  | cons s rs ih =>
      have hw := pass_abreast (hrs s (by simp) b b' h) h
      rw [Pipeline.round, Pipeline.round]
      generalize (s.prepare b).walk b = v at hw
      generalize (s.prepare b').walk b' = v' at hw
      obtain ⟨c, w⟩ := v
      obtain ⟨c', w'⟩ := v'
      obtain ⟨hc, rfl⟩ : r.Alike c c' ∧ w = w' := hw
      simp only
      split
      · exact ⟨hc, rfl⟩
      · exact ih (fun s hs => hrs s (by simp [hs])) hc _

theorem rounds_alike {rs : List Stage} (hrs : ∀ s ∈ rs, r.AlikeStage s) (remaining : Nat)
    {b b' : Block} (h : r.Alike b b') (report : RunReport) :
    r.Alike (Pipeline.rounds rs remaining b report).1 (Pipeline.rounds rs remaining b' report).1 ∧
      (Pipeline.rounds rs remaining b report).2 = (Pipeline.rounds rs remaining b' report).2 := by
  induction remaining generalizing b b' report with
  | zero => exact ⟨h, rfl⟩
  | succ remaining ih =>
      have hw := round_alike hrs h 0
      rw [Pipeline.rounds, Pipeline.rounds]
      generalize Pipeline.round rs b 0 = v at hw
      generalize Pipeline.round rs b' 0 = v' at hw
      obtain ⟨c, k⟩ := v
      obtain ⟨c', k'⟩ := v'
      obtain ⟨hc, rfl⟩ : r.Alike c c' ∧ k = k' := hw
      simp only
      split
      · exact ⟨hc, rfl⟩
      · exact ih hc _

theorem standard_alike {options : Options} {paths : Option Paths} (hsuits : r.Suits options paths) :
    ∀ s ∈ (Pipeline.standard options paths).stages, r.AlikeStage s := by
  intro s hs b b' h
  simp only [Pipeline.standard, List.mem_cons, List.mem_append, List.mem_map,
    Option.mem_toList, List.not_mem_nil, or_false] at hs
  rcases hs with rfl | ⟨given, hgiven, rfl⟩ | rfl
  · exact folding_alike
  · exact indirection_alike (hsuits.introduced given hgiven)
  · exact temporaries_alike hsuits (usage_alike h)

theorem simplify_alike {options : Options} {paths : Option Paths} (hsuits : r.Suits options paths)
    {b b' : Block} (h : r.Alike b b') :
    r.Alike (b.simplify options paths).1 (b'.simplify options paths).1 ∧
      (b.simplify options paths).2 = (b'.simplify options paths).2 :=
  rounds_alike (standard_alike hsuits) _ h _

end Renaming

/-- Two builds of a handler have the same fingerprint, and simplifying them goes the same way. -/
theorem print_eq_of_alike (r : Renaming) (options : Options) (paths : Option Paths)
    (hsuits : r.Suits options paths) (b b' : Block) (h : r.Alike b b') :
    Handler.print options paths (.source b) = Handler.print options paths (.source b') ∧
      (b.simplify options paths).2 = (b'.simplify options paths).2 := by
  obtain ⟨hblock, hreport⟩ := Renaming.simplify_alike hsuits h
  refine ⟨?_, hreport⟩
  have htokens := Renaming.tokens_stmts hblock
  exact congrArg Fingerprint.write htokens

namespace Renaming

/-- Exchanges two temporaries and the identities 1 and 2. -/
def exchange : Renaming where
  name := Equiv.swap "_a" "_b"
  id := Equiv.swap 1 2
  name_injective := Equiv.injective _
  id_injective := Equiv.injective _
  vocabulary := by
    intro n h
    apply Equiv.swap_apply_of_ne_of_ne
    · rintro rfl
      revert h
      decide
    · rintro rfl
      revert h
      decide

/-- A key that stands for `unpack`. -/
def oneKey : Paths := ⟨[("k", ["unpack"])]⟩

/-- `local t = stk[inst]; g.k(t[pc], s)` with the temporary, its declaration and the text to
choose. -/
def build (temporary : String) (id : NodeId) (text : String) : Block :=
  [.declare id [temporary] [.index (.name "stk") (.name "inst")],
   .call (.member (.name "g") "k") [.index (.name temporary) (.name "pc"), .string text]]

theorem exchange_suits : exchange.Suits .standard (some oneKey) where
  registerHelper := by decide
  introduced := by
    rintro given hgiven n ⟨key, rest, hget, -⟩
    cases hgiven
    by_cases hk : "k" = key
    · have hpath : ["unpack"] = n :: rest := by simpa [Dict.get?, Dict.find, oneKey, hk] using hget
      cases hpath
      decide
    · simp [Dict.get?, Dict.find, oneKey, hk] at hget
  tempPrefix := by
    intro n
    by_cases ha : n = "_a"
    · subst ha
      decide
    · by_cases hb : n = "_b"
      · subst hb
        decide
      · rw [show exchange.name n = n from Equiv.swap_apply_of_ne_of_ne ha hb]

theorem exchange_alike : exchange.Alike (build "_a" 1 "left") (build "_b" 2 "right") :=
  .cons (.declare 1 ["_a"] (.cons (.index (.name "stk") (.name "inst")) .nil))
    (.cons (.call (.member "k" (.name "g"))
      (.cons (.index (.name "_a") (.name "pc")) (.cons (.string "left" "right") .nil))) .nil)

end Renaming

open Renaming in
theorem print_eq_of_exchange :
    exchange.Suits .standard (some oneKey) ∧
      exchange.Alike (build "_a" 1 "left") (build "_b" 2 "right") ∧
      Handler.print .standard (some oneKey) (.source (build "_a" 1 "left")) =
        Handler.print .standard (some oneKey) (.source (build "_b" 2 "right")) ∧
      ((build "_a" 1 "left").simplify .standard (some oneKey)).2 =
        ((build "_b" 2 "right").simplify .standard (some oneKey)).2 :=
  ⟨exchange_suits, exchange_alike,
    print_eq_of_alike exchange .standard (some oneKey) exchange_suits _ _ exchange_alike⟩

end Devirt
