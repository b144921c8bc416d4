import Devirt.Proofs.UsageTable
import Devirt.Fingerprint
import Devirt.Pass.Pipeline
import Mathlib.Tactic

set_option autoImplicit false

/-! # Trees that differ in what does not matter

Two builds of one program have the same tree but for its names, the identities of its statements
and the values of its literals.  `Renaming.Alike r` relates two such trees: names are renamed by
`r`, identities renumbered by `r`, and each literal stands against any literal of its kind.

Everything a pass asks of a tree has one answer on alike trees.  This module shows it of the
analyses: the tokens, the nesting of blocks, the mentions of a name, and the usage table, whose
entries correspond name by name (`usage_alike`). -/

namespace Devirt

/-- Other names and other identities, different ones for different ones.  The vocabulary of the
virtual machine keeps its names. -/
structure Renaming where
  name : String → String
  id : NodeId → NodeId
  name_injective : Function.Injective name
  id_injective : Function.Injective id
  vocabulary : ∀ n, (Fingerprint.nameToken n).isSome → name n = n

namespace Renaming

variable (r : Renaming)

/-! ## Alike trees -/

mutual

/-- The second expression is the first, renamed, with other literals. -/
inductive AlikeExpr : Expr → Expr → Prop where
  | nil : AlikeExpr .nil .nil
  | bool (b b' : Bool) : AlikeExpr (.bool b) (.bool b')
  | number (x x' : Double) : AlikeExpr (.number x) (.number x')
  | string (s s' : String) : AlikeExpr (.string s) (.string s')
  | vararg : AlikeExpr .vararg .vararg
  | name (n : String) : AlikeExpr (.name n) (.name (r.name n))
  | binary (op : BinaryOp) {l l' k k' : Expr} : AlikeExpr l l' → AlikeExpr k k' →
      AlikeExpr (.binary op l k) (.binary op l' k')
  | unary (op : UnaryOp) {e e' : Expr} : AlikeExpr e e' → AlikeExpr (.unary op e) (.unary op e')
  | member (field : String) {o o' : Expr} : AlikeExpr o o' →
      AlikeExpr (.member o field) (.member o' field)
  | index {t t' k k' : Expr} : AlikeExpr t t' → AlikeExpr k k' →
      AlikeExpr (.index t k) (.index t' k')
  | call {f f' : Expr} {args args' : List Expr} : AlikeExpr f f' →
      List.Forall₂ AlikeExpr args args' → AlikeExpr (.call f args) (.call f' args')
  | table {entries entries' : List Entry} : List.Forall₂ AlikeEntry entries entries' →
      AlikeExpr (.table entries) (.table entries')
  | function (params : List String) (variadic : Bool) {body body' : Block} :
      List.Forall₂ AlikeStmt body body' →
      AlikeExpr (.function params variadic body) (.function (params.map r.name) variadic body')

inductive AlikeEntry : Entry → Entry → Prop where
  | positional {v v' : Expr} : AlikeExpr v v' → AlikeEntry (.positional v) (.positional v')
  | keyed {k k' v v' : Expr} : AlikeExpr k k' → AlikeExpr v v' →
      AlikeEntry (.keyed k v) (.keyed k' v')

inductive AlikeStmt : Stmt → Stmt → Prop where
  | declare (id : NodeId) (names : List String) {values values' : List Expr} :
      List.Forall₂ AlikeExpr values values' →
      AlikeStmt (.declare id names values) (.declare (r.id id) (names.map r.name) values')
  | assign (id : NodeId) {targets targets' values values' : List Expr} :
      List.Forall₂ AlikeExpr targets targets' → List.Forall₂ AlikeExpr values values' →
      AlikeStmt (.assign id targets values) (.assign (r.id id) targets' values')
  | call {f f' : Expr} {args args' : List Expr} : AlikeExpr f f' →
      List.Forall₂ AlikeExpr args args' → AlikeStmt (.call f args) (.call f' args')
  | scope {body body' : Block} : List.Forall₂ AlikeStmt body body' →
      AlikeStmt (.scope body) (.scope body')
  | branch {clauses clauses' : List Clause} : List.Forall₂ AlikeClause clauses clauses' →
      AlikeStmt (.branch clauses none) (.branch clauses' none)
  | branchElse {clauses clauses' : List Clause} {body body' : Block} :
      List.Forall₂ AlikeClause clauses clauses' → List.Forall₂ AlikeStmt body body' →
      AlikeStmt (.branch clauses (some body)) (.branch clauses' (some body'))
  | whileLoop {cond cond' : Expr} {body body' : Block} : AlikeExpr cond cond' →
      List.Forall₂ AlikeStmt body body' →
      AlikeStmt (.whileLoop cond body) (.whileLoop cond' body')
  | repeatLoop {body body' : Block} {cond cond' : Expr} : List.Forall₂ AlikeStmt body body' →
      AlikeExpr cond cond' → AlikeStmt (.repeatLoop body cond) (.repeatLoop body' cond')
  | numericFor (var : String) {start start' limit limit' : Expr} {body body' : Block} :
      AlikeExpr start start' → AlikeExpr limit limit' → List.Forall₂ AlikeStmt body body' →
      AlikeStmt (.numericFor var start limit none body)
        (.numericFor (r.name var) start' limit' none body')
  | numericForStep (var : String) {start start' limit limit' step step' : Expr}
      {body body' : Block} :
      AlikeExpr start start' → AlikeExpr limit limit' → AlikeExpr step step' →
      List.Forall₂ AlikeStmt body body' →
      AlikeStmt (.numericFor var start limit (some step) body)
        (.numericFor (r.name var) start' limit' (some step') body')
  | genericFor (names : List String) {exprs exprs' : List Expr} {body body' : Block} :
      List.Forall₂ AlikeExpr exprs exprs' → List.Forall₂ AlikeStmt body body' →
      AlikeStmt (.genericFor names exprs body) (.genericFor (names.map r.name) exprs' body')
  | ret {values values' : List Expr} : List.Forall₂ AlikeExpr values values' →
      AlikeStmt (.ret values) (.ret values')
  | brk : AlikeStmt .brk .brk

inductive AlikeClause : Clause → Clause → Prop where
  | mk {cond cond' : Expr} {body body' : Block} : AlikeExpr cond cond' →
      List.Forall₂ AlikeStmt body body' → AlikeClause (.mk cond body) (.mk cond' body')

end

/-- The second block is the first, renamed, with other literals. -/
def Alike (b b' : Block) : Prop := List.Forall₂ r.AlikeStmt b b'

variable {r : Renaming}

/-! ## Tokens -/

section

open Fingerprint

/-- A name has the token of its new name. -/
theorem nameToken_name (n : String) : nameToken (r.name n) = nameToken n := by
  cases h : nameToken n with
  | some k => rw [r.vocabulary n (by simp [h]), h]
  | none =>
      -- a word of the vocabulary is its own new name, so no other name can become it
      by_contra hc
      have hsome : (nameToken (r.name n)).isSome := Option.isSome_iff_ne_none.mpr hc
      have hfix : r.name n = n := r.name_injective (r.vocabulary _ hsome)
      rw [hfix, h] at hc
      exact hc rfl

-- Here and below the recursion is on the first tree; the derivation is matched along with it.
mutual

theorem tokens_expr : {e e' : Expr} → r.AlikeExpr e e' → exprTokens e = exprTokens e'
  | _, _, .nil | _, _, .bool .. | _, _, .number .. | _, _, .string .. | _, _, .vararg => rfl
  | _, _, .name n => by rw [exprTokens, exprTokens, nameToken_name]
  | _, _, .binary op hl hk => by rw [exprTokens, exprTokens, tokens_expr hl, tokens_expr hk]
  | _, _, .unary op he => by rw [exprTokens, exprTokens, tokens_expr he]
  | _, _, .member f ho => by rw [exprTokens, exprTokens, tokens_expr ho]
  | _, _, .index ht hk => by rw [exprTokens, exprTokens, tokens_expr ht, tokens_expr hk]
  | _, _, .call hf has => by rw [exprTokens, exprTokens, tokens_expr hf, tokens_exprs has]
  | _, _, .table hes => by rw [exprTokens, exprTokens, tokens_entries hes]
  | _, _, .function _ _ hb => by rw [exprTokens, exprTokens, tokens_stmts hb]
termination_by structural x => x

theorem tokens_exprs : {es es' : List Expr} → List.Forall₂ r.AlikeExpr es es' →
    exprsTokens es = exprsTokens es'
  | _, _, .nil => rfl
  | _, _, .cons he hes => by rw [exprsTokens, exprsTokens, tokens_expr he, tokens_exprs hes]
termination_by structural x => x

theorem tokens_entries : {es es' : List Entry} → List.Forall₂ r.AlikeEntry es es' →
    entriesTokens es = entriesTokens es'
  | _, _, .nil => rfl
  | _, _, .cons (.positional hv) hes => by
      rw [entriesTokens, entriesTokens, tokens_expr hv, tokens_entries hes]
  | _, _, .cons (.keyed hk hv) hes => by
      rw [entriesTokens, entriesTokens, tokens_expr hk, tokens_expr hv, tokens_entries hes]
termination_by structural x => x

theorem tokens_stmt : {s s' : Stmt} → r.AlikeStmt s s' → stmtTokens s = stmtTokens s'
  | _, _, .declare _ _ hvs => by rw [stmtTokens, stmtTokens, tokens_exprs hvs]
  | _, _, .assign _ hts hvs => by
      rw [stmtTokens, stmtTokens, tokens_exprs hts, tokens_exprs hvs]
  | _, _, .call hf has => by rw [stmtTokens, stmtTokens, tokens_expr hf, tokens_exprs has]
  | _, _, .scope hb => by rw [stmtTokens, stmtTokens, tokens_stmts hb]
  | _, _, .branch hcs => by
      rw [stmtTokens, stmtTokens, tokens_clauses hcs, hcs.length_eq]
  | _, _, .branchElse hcs hb => by
      rw [stmtTokens, stmtTokens, tokens_clauses hcs, tokens_stmts hb, hcs.length_eq]
  | _, _, .whileLoop hc hb => by rw [stmtTokens, stmtTokens, tokens_expr hc, tokens_stmts hb]
  | _, _, .repeatLoop hb hc => by rw [stmtTokens, stmtTokens, tokens_expr hc, tokens_stmts hb]
  | _, _, .numericFor _ hs hl hb => by
      rw [stmtTokens, stmtTokens, tokens_expr hs, tokens_expr hl, tokens_stmts hb]
  | _, _, .numericForStep _ hs hl ht hb => by
      rw [stmtTokens, stmtTokens, tokens_expr hs, tokens_expr hl, tokens_expr ht, tokens_stmts hb]
  | _, _, .genericFor _ hes hb => by
      rw [stmtTokens, stmtTokens, tokens_exprs hes, tokens_stmts hb]
  | _, _, .ret hvs => by rw [stmtTokens, stmtTokens, tokens_exprs hvs]
  | _, _, .brk => rfl
termination_by structural x => x

theorem tokens_stmts : {b b' : Block} → r.Alike b b' → stmtsTokens b = stmtsTokens b'
  | _, _, .nil => rfl
  | _, _, .cons hs hb => by rw [stmtsTokens, stmtsTokens, tokens_stmt hs, tokens_stmts hb]
termination_by structural x => x

theorem tokens_clauses : {cs cs' : List Clause} → List.Forall₂ r.AlikeClause cs cs' →
    clausesTokens cs = clausesTokens cs'
  | _, _, .nil => rfl
  | _, _, .cons (.mk hc hb) hcs => by
      rw [clausesTokens, clausesTokens, tokens_expr hc, tokens_stmts hb, tokens_clauses hcs]
termination_by structural x => x

end

end

/-! ## Nesting of blocks -/

section

open Walk

mutual

theorem blocks_expr : {e e' : Expr} → r.AlikeExpr e e' → exprBlocks e = exprBlocks e'
  | _, _, .nil | _, _, .bool .. | _, _, .number .. | _, _, .string .. | _, _, .vararg
  | _, _, .name _ => rfl
  | _, _, .binary _ hl hk => by rw [exprBlocks, exprBlocks, blocks_expr hl, blocks_expr hk]
  | _, _, .unary _ he => by rw [exprBlocks, exprBlocks, blocks_expr he]
  | _, _, .member _ ho => by rw [exprBlocks, exprBlocks, blocks_expr ho]
  | _, _, .index ht hk => by rw [exprBlocks, exprBlocks, blocks_expr ht, blocks_expr hk]
  | _, _, .call hf has => by rw [exprBlocks, exprBlocks, blocks_expr hf, blocks_exprs has]
  | _, _, .table hes => by rw [exprBlocks, exprBlocks, blocks_entries hes]
  | _, _, .function _ _ hb => by rw [exprBlocks, exprBlocks, blocks_stmts hb]
termination_by structural x => x

theorem blocks_exprs : {es es' : List Expr} → List.Forall₂ r.AlikeExpr es es' →
    exprsBlocks es = exprsBlocks es'
  | _, _, .nil => rfl
  | _, _, .cons he hes => by rw [exprsBlocks, exprsBlocks, blocks_expr he, blocks_exprs hes]
termination_by structural x => x

theorem blocks_entries : {es es' : List Entry} → List.Forall₂ r.AlikeEntry es es' →
    entriesBlocks es = entriesBlocks es'
  | _, _, .nil => rfl
  | _, _, .cons (.positional hv) hes => by
      rw [entriesBlocks, entriesBlocks, blocks_expr hv, blocks_entries hes]
  | _, _, .cons (.keyed hk hv) hes => by
      rw [entriesBlocks, entriesBlocks, blocks_expr hk, blocks_expr hv, blocks_entries hes]
termination_by structural x => x

theorem blocks_stmt : {s s' : Stmt} → r.AlikeStmt s s' → stmtBlocks s = stmtBlocks s'
  | _, _, .declare _ _ hvs => by rw [stmtBlocks, stmtBlocks, blocks_exprs hvs]
  | _, _, .assign _ hts hvs => by
      rw [stmtBlocks, stmtBlocks, blocks_exprs hts, blocks_exprs hvs]
  | _, _, .call hf has => by rw [stmtBlocks, stmtBlocks, blocks_expr hf, blocks_exprs has]
  | _, _, .scope hb => by rw [stmtBlocks, stmtBlocks, blocks_stmts hb]
  | _, _, .branch hcs => by rw [stmtBlocks, stmtBlocks, blocks_clauses hcs]
  | _, _, .branchElse hcs hb => by
      rw [stmtBlocks, stmtBlocks, blocks_clauses hcs, blocks_stmts hb]
  | _, _, .whileLoop hc hb => by rw [stmtBlocks, stmtBlocks, blocks_expr hc, blocks_stmts hb]
  | _, _, .repeatLoop hb hc => by rw [stmtBlocks, stmtBlocks, blocks_expr hc, blocks_stmts hb]
  | _, _, .numericFor _ hs hl hb => by
      rw [stmtBlocks, stmtBlocks, blocks_expr hs, blocks_expr hl, blocks_stmts hb]
  | _, _, .numericForStep _ hs hl ht hb => by
      rw [stmtBlocks, stmtBlocks, blocks_expr hs, blocks_expr hl, blocks_expr ht, blocks_stmts hb]
  | _, _, .genericFor _ hes hb => by
      rw [stmtBlocks, stmtBlocks, blocks_exprs hes, blocks_stmts hb]
  | _, _, .ret hvs => by rw [stmtBlocks, stmtBlocks, blocks_exprs hvs]
  | _, _, .brk => rfl
termination_by structural x => x

theorem blocks_stmts : {b b' : Block} → r.Alike b b' → stmtsBlocks b = stmtsBlocks b'
  | _, _, .nil => rfl
  | _, _, .cons hs hb => by rw [stmtsBlocks, stmtsBlocks, blocks_stmt hs, blocks_stmts hb]
termination_by structural x => x

theorem blocks_clauses : {cs cs' : List Clause} → List.Forall₂ r.AlikeClause cs cs' →
    clausesBlocks cs = clausesBlocks cs'
  | _, _, .nil => rfl
  | _, _, .cons (.mk hc hb) hcs => by
      rw [clausesBlocks, clausesBlocks, blocks_expr hc, blocks_stmts hb, blocks_clauses hcs]
termination_by structural x => x

end

/-- Walks over alike blocks start with the same fuel. -/
theorem enoughFuel_alike {b b' : Block} (h : r.Alike b b') : enoughFuel b = enoughFuel b' := by
  rw [enoughFuel, enoughFuel, blocks_stmts h]

end

/-! ## Occurrences of a name -/

section

open Devirt.Expr

/-- Names are told apart after a renaming as before. -/
theorem name_beq (m n : String) : (r.name m == r.name n) = (m == n) := by
  by_cases h : m = n
  · simp [h]
  · have hne : r.name m ≠ r.name n := fun hc => h (r.name_injective hc)
    simp [h, hne]

mutual

theorem mentions_expr (n : String) : {e e' : Expr} → r.AlikeExpr e e' →
    e'.mentions (r.name n) = e.mentions n
  | _, _, .nil | _, _, .bool .. | _, _, .number .. | _, _, .string .. | _, _, .vararg
  | _, _, .function .. => by rw [mentions, mentions]
  | _, _, .name m => by rw [mentions, mentions, name_beq]
  | _, _, .binary _ hl hk => by
      rw [mentions, mentions, mentions_expr n hl, mentions_expr n hk]
  | _, _, .unary _ he => by rw [mentions, mentions, mentions_expr n he]
  | _, _, .member _ ho => by rw [mentions, mentions, mentions_expr n ho]
  | _, _, .index ht hk => by rw [mentions, mentions, mentions_expr n ht, mentions_expr n hk]
  | _, _, .call hf has => by rw [mentions, mentions, mentions_expr n hf, mentions_exprs n has]
  | _, _, .table hes => by rw [mentions, mentions, mentions_entries n hes]
termination_by structural x => x

theorem mentions_exprs (n : String) : {es es' : List Expr} → List.Forall₂ r.AlikeExpr es es' →
    anyMentions (r.name n) es' = anyMentions n es
  | _, _, .nil => rfl
  | _, _, .cons he hes => by
      rw [anyMentions, anyMentions, mentions_expr n he, mentions_exprs n hes]
termination_by structural x => x

theorem mentions_entries (n : String) : {es es' : List Entry} →
    List.Forall₂ r.AlikeEntry es es' → anyEntryMentions (r.name n) es' = anyEntryMentions n es
  | _, _, .nil => rfl
  | _, _, .cons (.positional hv) hes => by
      rw [anyEntryMentions, anyEntryMentions, mentions_expr n hv, mentions_entries n hes]
  | _, _, .cons (.keyed hk hv) hes => by
      rw [anyEntryMentions, anyEntryMentions, mentions_expr n hk, mentions_expr n hv,
        mentions_entries n hes]
termination_by structural x => x

end

end

/-! ## Events -/

open Usage

/-- A value that is known stands against an alike one. -/
abbrev AlikeValue (r : Renaming) : Option Expr → Option Expr → Prop := Option.Rel r.AlikeExpr

/-- The second event is the first, renamed, at the same place. -/
inductive AlikeEvent (r : Renaming) : Event → Event → Prop where
  | read (n : String) (place : Place) : AlikeEvent r (.read n place) (.read (r.name n) place)
  | declare (n : String) (place : Place) (id : NodeId) {v v' : Option Expr} :
      r.AlikeValue v v' →
      AlikeEvent r (.declare n place id v) (.declare (r.name n) place (r.id id) v')
  | assign (n : String) (place : Place) (id : NodeId) {v v' : Option Expr} :
      r.AlikeValue v v' →
      AlikeEvent r (.assign n place id v) (.assign (r.name n) place (r.id id) v')
  | introduce (n : String) : AlikeEvent r (.introduce n) (.introduce (r.name n))

/-- Two readings with alike events and the same next block number. -/
def AlikeReading (r : Renaming) (x y : List Event × Nat) : Prop :=
  List.Forall₂ r.AlikeEvent x.1 y.1 ∧ x.2 = y.2

namespace AlikeReading

theorem nil (next : Nat) : r.AlikeReading ([], next) ([], next) := ⟨.nil, rfl⟩

/-- Names that are introduced. -/
theorem introduce (names : List String) (next : Nat) :
    r.AlikeReading (names.map .introduce, next) ((names.map r.name).map .introduce, next) := by
  refine ⟨?_, rfl⟩
  rw [List.map_map, List.forall₂_map_left_iff, List.forall₂_map_right_iff, List.forall₂_same]
  exact fun n _ => .introduce n

/-- One reading after the other. -/
theorem seq {x x' : List Event × Nat} {f f' : Nat → List Event × Nat}
    (hx : r.AlikeReading x x') (hf : ∀ next, r.AlikeReading (f next) (f' next)) :
    r.AlikeReading (x.1 ++ (f x.2).1, (f x.2).2) (x'.1 ++ (f' x'.2).1, (f' x'.2).2) := by
  obtain ⟨hevents, hnext⟩ := hx
  have h := hf x.2
  rw [← hnext]
  exact ⟨List.rel_append hevents h.1, h.2⟩

end AlikeReading

/-- A name stands against its new name, any other expression against one that is no name. -/
theorem name_or_other {e e' : Expr} (h : r.AlikeExpr e e') :
    (∃ n, e = .name n ∧ e' = .name (r.name n)) ∨ e.name? = none ∧ e'.name? = none := by
  cases h with
  | name n => exact .inl ⟨n, rfl, rfl⟩
  | _ => exact .inr ⟨rfl, rfl⟩

theorem some_alike {vs vs' : List Expr} (h : List.Forall₂ r.AlikeExpr vs vs') :
    List.Forall₂ r.AlikeValue (vs.map some) (vs'.map some) := by
  rw [List.forall₂_map_left_iff, List.forall₂_map_right_iff]
  exact h.imp fun _ _ => .some

/-- The values that targets are paired with. -/
theorem values_alike {ts ts' vs vs' : List Expr} (ht : List.Forall₂ r.AlikeExpr ts ts')
    (hv : List.Forall₂ r.AlikeExpr vs vs') :
    List.Forall₂ r.AlikeValue (if ts.length = vs.length then vs.map some else [])
      (if ts'.length = vs'.length then vs'.map some else []) := by
  rw [← ht.length_eq, ← hv.length_eq]
  split
  · exact some_alike hv
  · exact .nil

/-- A name paired with a value stands against the new name paired with an alike one. -/
def AlikePair (r : Renaming) (p q : String × Option Expr) : Prop :=
  q.1 = r.name p.1 ∧ r.AlikeValue p.2 q.2

theorem paired_alike (names : List String) {vs vs' : List Expr}
    (h : List.Forall₂ r.AlikeExpr vs vs') :
    List.Forall₂ r.AlikePair (paired names vs) (paired (names.map r.name) vs') := by
  unfold paired
  rw [List.length_map, ← h.length_eq]
  split
  · -- the lengths are no part of the induction
    clear * - h
    induction names generalizing vs vs' with
    | nil => exact .nil
    | cons n names ih =>
        cases h with
        | nil => exact .nil
        | cons hv hvs => exact .cons ⟨rfl, .some hv⟩ (ih hvs)
  · rw [List.map_map, List.forall₂_map_left_iff, List.forall₂_map_right_iff, List.forall₂_same]
    exact fun n _ => ⟨rfl, .none⟩

theorem AlikeReading.declare (place : Place) (id : NodeId) {ps qs : List (String × Option Expr)}
    (h : List.Forall₂ r.AlikePair ps qs) (next : Nat) :
    r.AlikeReading (ps.map fun p => .declare p.1 place id p.2, next)
      (qs.map fun p => .declare p.1 place (r.id id) p.2, next) := by
  refine ⟨?_, rfl⟩
  rw [List.forall₂_map_left_iff, List.forall₂_map_right_iff]
  refine h.imp fun p q hpq => ?_
  rw [hpq.1]
  exact .declare p.1 place id hpq.2

/-- Alike expressions with alike readings. -/
def AlikeAt (r : Renaming) (place : Place) (e e' : Expr) : Prop :=
  r.AlikeExpr e e' ∧ ∀ next, r.AlikeReading (exprEvents place e next) (exprEvents place e' next)

theorem events_targets {place : Place} (id : NodeId) {es es' : List Expr}
    (h : List.Forall₂ (r.AlikeAt place) es es') {vs vs' : List (Option Expr)}
    (hvs : List.Forall₂ r.AlikeValue vs vs') (next : Nat) :
    r.AlikeReading (targetsEvents place id vs es next)
      (targetsEvents place (r.id id) vs' es' next) := by
  induction h generalizing vs vs' next with
  | nil => exact .nil next
  | cons he hes ih =>
      have hrest := fun next => ih (List.forall₂_drop 1 hvs) next
      rcases name_or_other he.1 with ⟨n, rfl, rfl⟩ | ⟨hn, hn'⟩
      · have hvalue : r.AlikeValue vs.head?.join vs'.head?.join := by
          cases hvs with
          | nil => exact .none
          | cons hv _ => exact hv
        exact ⟨.cons (.assign n place id hvalue) (hrest next).1, (hrest next).2⟩
      · rw [targetsEvents_cons hn, targetsEvents_cons hn']
        exact .seq (he.2 next) hrest

-- Block numbers are handed out in textual order, so both readings number alike; `seq` carries the
-- number from one part to the next.
mutual

theorem events_expr (place : Place) : {e e' : Expr} → r.AlikeExpr e e' → (next : Nat) →
    r.AlikeReading (exprEvents place e next) (exprEvents place e' next)
  | _, _, .nil, next | _, _, .bool .., next | _, _, .number .., next | _, _, .string .., next
  | _, _, .vararg, next => .nil next
  | _, _, .name n, _ => ⟨.cons (.read n place) .nil, rfl⟩
  | _, _, .binary _ hl hk, next => .seq (events_expr place hl next) (events_expr place hk)
  | _, _, .unary _ he, next => events_expr place he next
  | _, _, .member _ ho, next => events_expr place ho next
  | _, _, .index ht hk, next => .seq (events_expr place ht next) (events_expr place hk)
  | _, _, .call hf has, next => .seq (events_expr place hf next) (events_exprs place has)
  | _, _, .table hes, next => events_entries place hes next
  | _, _, .function params _ hb, next =>
      (AlikeReading.introduce params next).seq fun next =>
        events_stmts (place ++ [next]) hb (next + 1)
termination_by structural x => x

theorem events_exprs (place : Place) : {es es' : List Expr} → List.Forall₂ r.AlikeExpr es es' →
    (next : Nat) → r.AlikeReading (exprsEvents place es next) (exprsEvents place es' next)
  | _, _, .nil, next => .nil next
  | _, _, .cons he hes, next => .seq (events_expr place he next) (events_exprs place hes)
termination_by structural x => x

theorem events_entries (place : Place) : {es es' : List Entry} →
    List.Forall₂ r.AlikeEntry es es' → (next : Nat) →
    r.AlikeReading (entriesEvents place es next) (entriesEvents place es' next)
  | _, _, .nil, next => .nil next
  | _, _, .cons (.positional hv) hes, next =>
      .seq (events_expr place hv next) (events_entries place hes)
  | _, _, .cons (.keyed hk hv) hes, next =>
      .seq (.seq (events_expr place hk next) (events_expr place hv)) (events_entries place hes)
termination_by structural x => x

theorem events_each (place : Place) : {es es' : List Expr} → List.Forall₂ r.AlikeExpr es es' →
    List.Forall₂ (r.AlikeAt place) es es'
  | _, _, .nil => .nil
  | _, _, .cons he hes => .cons ⟨he, events_expr place he⟩ (events_each place hes)
termination_by structural x => x

theorem events_stmt (place : Place) : {s s' : Stmt} → r.AlikeStmt s s' → (next : Nat) →
    r.AlikeReading (stmtEvents place s next) (stmtEvents place s' next)
  | _, _, .declare id names hvs, next =>
      .seq (events_exprs place hvs next) fun next => .declare place id (paired_alike names hvs) next
  | _, _, .assign id hts hvs, next =>
      .seq (events_exprs place hvs next)
        (events_targets id (events_each place hts) (values_alike hts hvs))
  | _, _, .call hf has, next => .seq (events_expr place hf next) (events_exprs place has)
  | _, _, .scope hb, next => events_stmts (place ++ [next]) hb (next + 1)
  | _, _, .branch hcs, next => events_clauses place hcs next
  | _, _, .branchElse hcs hb, next =>
      .seq (events_clauses place hcs next) fun next => events_stmts (place ++ [next]) hb (next + 1)
  | _, _, .whileLoop hc hb, next =>
      .seq (events_expr place hc next) fun next => events_stmts (place ++ [next]) hb (next + 1)
  | _, _, .repeatLoop hb hc, next =>
      .seq (events_stmts (place ++ [next]) hb (next + 1)) (events_expr (place ++ [next]) hc)
  | _, _, .numericFor var hs hl hb, next =>
      .seq (.seq (events_expr place hs next) (events_expr place hl)) fun next =>
        .seq (.introduce [var] next) fun next => events_stmts (place ++ [next]) hb (next + 1)
  | _, _, .numericForStep var hs hl ht hb, next =>
      .seq (.seq (.seq (events_expr place hs next) (events_expr place hl)) (events_expr place ht))
        fun next =>
          .seq (.introduce [var] next) fun next => events_stmts (place ++ [next]) hb (next + 1)
  | _, _, .genericFor names hes hb, next =>
      .seq (.seq (events_exprs place hes next) (.introduce names)) fun next =>
        events_stmts (place ++ [next]) hb (next + 1)
  | _, _, .ret hvs, next => events_exprs place hvs next
  | _, _, .brk, next => .nil next
termination_by structural x => x

theorem events_stmts (place : Place) : {b b' : Block} → r.Alike b b' → (next : Nat) →
    r.AlikeReading (stmtsEvents place b next) (stmtsEvents place b' next)
  | _, _, .nil, next => .nil next
  | _, _, .cons hs hb, next => .seq (events_stmt place hs next) (events_stmts place hb)
termination_by structural x => x

theorem events_clauses (place : Place) : {cs cs' : List Clause} →
    List.Forall₂ r.AlikeClause cs cs' → (next : Nat) →
    r.AlikeReading (clausesEvents place cs next) (clausesEvents place cs' next)
  | _, _, .nil, next => .nil next
  | _, _, .cons (.mk hc hb) hcs, next =>
      .seq (.seq (events_expr place hc next) fun next =>
        events_stmts (place ++ [next]) hb (next + 1)) (events_clauses place hcs)
termination_by structural x => x

end

/-! ## The usage table -/

/-- What is known of a name and of its new name. -/
structure AlikeVariable (r : Renaming) (v v' : Variable) : Prop where
  reads : v.reads = v'.reads
  assignments : v.assignments = v'.assignments
  declaration : v'.declaration = v.declaration.map r.id
  value : r.AlikeValue v.value v'.value
  escapes : v.escapes = v'.escapes

structure AlikeTracked (r : Renaming) (t t' : Tracked) : Prop where
  info : r.AlikeVariable t.info t'.info
  home : t.home = t'.home

/-- Alike tables have alike entries for a name and its new name. -/
def AlikeUsage (r : Renaming) (u u' : UsageTable) : Prop :=
  ∀ n, Option.Rel r.AlikeVariable (u.get? n) (u'.get? (r.name n))

namespace AlikeTracked

theorem fresh : r.AlikeTracked .fresh .fresh := ⟨⟨rfl, rfl, rfl, .none, rfl⟩, rfl⟩

variable {t t' : Tracked} (h : r.AlikeTracked t t')

include h

theorem usedAt (place : Place) : r.AlikeTracked (t.usedAt place) (t'.usedAt place) := by
  unfold Tracked.usedAt
  rw [← h.home]
  split
  · exact h
  · split
    · exact h
    · exact ⟨⟨h.info.reads, h.info.assignments, h.info.declaration, h.info.value, rfl⟩, rfl⟩

theorem read (place : Place) : r.AlikeTracked (t.read place) (t'.read place) := by
  have hcount : r.AlikeTracked { t with info := { t.info with reads := t.info.reads + 1 } }
      { t' with info := { t'.info with reads := t'.info.reads + 1 } } :=
    ⟨⟨congrArg (· + 1) h.info.reads, h.info.assignments, h.info.declaration, h.info.value,
      h.info.escapes⟩, h.home⟩
  exact hcount.usedAt place

theorem declaration_isSome : t'.info.declaration.isSome = t.info.declaration.isSome := by
  rw [h.info.declaration, Option.isSome_map]

theorem declare (place : Place) (id : NodeId) {v v' : Option Expr} (hv : r.AlikeValue v v') :
    r.AlikeTracked (t.declare place id v) (t'.declare place (r.id id) v') := by
  unfold Tracked.declare
  rw [h.declaration_isSome]
  split
  · exact h
  · refine ⟨⟨h.info.reads, h.info.assignments, rfl, hv, ?_⟩, rfl⟩
    simp only [h.info.escapes, h.info.reads]

theorem assign (place : Place) (id : NodeId) {v v' : Option Expr} (hv : r.AlikeValue v v') :
    r.AlikeTracked (t.assign place id v) (t'.assign place (r.id id) v') := by
  unfold Tracked.assign
  rw [h.declaration_isSome]
  split
  · have hcount : r.AlikeTracked
        { t with info := { t.info with assignments := t.info.assignments + 1 } }
        { t' with info := { t'.info with assignments := t'.info.assignments + 1 } } :=
      ⟨⟨h.info.reads, congrArg (· + 1) h.info.assignments, h.info.declaration, h.info.value,
        h.info.escapes⟩, h.home⟩
    exact hcount.usedAt place
  · exact h.declare place id hv

theorem apply {e e' : Event} (he : r.AlikeEvent e e') :
    r.AlikeTracked (e.apply t) (e'.apply t') := by
  cases he with
  | read n place => exact h.read place
  | declare n place id hv => exact h.declare place id hv
  | assign n place id hv => exact h.assign place id hv
  | introduce n => exact h

end AlikeTracked

theorem AlikeEvent.name_eq {e e' : Event} (h : r.AlikeEvent e e') :
    e'.name = r.name e.name := by
  cases h <;> rfl

/-- Alike events are about one name together. -/
theorem AlikeEvent.name_iff {e e' : Event} (h : r.AlikeEvent e e') (n : String) :
    e'.name = r.name n ↔ e.name = n := by
  rw [h.name_eq]
  exact r.name_injective.eq_iff

theorem track_alike {es es' : List Event} (h : List.Forall₂ r.AlikeEvent es es') (n : String)
    {t t' : Tracked} (ht : r.AlikeTracked t t') :
    r.AlikeTracked (trackFrom n t es) (trackFrom (r.name n) t' es') := by
  induction h generalizing t t' with
  | nil => exact ht
  | @cons e e' es es' he hes ih =>
      rw [trackFrom_cons, trackFrom_cons]
      by_cases hn : e.name = n
      · rw [if_pos hn, if_pos ((he.name_iff n).mpr hn)]
        exact ih (ht.apply he)
      · rw [if_neg hn, if_neg (mt (he.name_iff n).mp hn)]
        exact ih ht

theorem tabulate_alike {es es' : List Event} (h : List.Forall₂ r.AlikeEvent es es') :
    r.AlikeUsage (tabulate es) (tabulate es') := by
  intro n
  -- a name has an entry if some event is about it
  have hiff : (∃ e ∈ es, e.name = n) ↔ ∃ e' ∈ es', e'.name = r.name n := by
    induction h with
    | nil => simp
    | cons he _ ih => simp only [List.exists_mem_cons_iff, ih, he.name_iff n]
  rw [get?_tabulate, get?_tabulate]
  by_cases hn : ∃ e ∈ es, e.name = n
  · rw [if_pos hn, if_pos (hiff.mp hn)]
    exact .some (track_alike h n .fresh).info
  · rw [if_neg hn, if_neg (mt hiff.mpr hn)]
    exact .none

/-- Alike blocks have alike tables. -/
theorem usage_alike {b b' : Block} (h : r.Alike b b') : r.AlikeUsage b.usage b'.usage :=
  tabulate_alike (events_stmts [0] h 1).1

end Renaming

end Devirt
