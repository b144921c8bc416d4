import Devirt.Proofs.Replacement
import Devirt.Usage
import Mathlib.Tactic

set_option autoImplicit false

/-! # Outlines

The *outline* of a tree keeps the calls, the names that are read and the statements that bind, each
with the outline of what it holds; everything else is left out.  A relation between outlines that goes
through lists and into statements holds for a whole replacement as soon as it holds for the answers of
the hooks (`Follows.block_step`).

The *uses* of an outline are the calls and the names in it, but for what stands in statements that are
covered.  How much is seen thus depends on what is covered: `reveal` compares two readings of one
outline by what they make of the statements that only one of them covers. -/

namespace Devirt

open Usage

inductive Item where
  | call
  | read (name : String)
  /-- A statement that binds names, and what it holds. -/
  | bind (s : Stmt) (content : List Item)

mutual

def exprItems : Expr → List Item
  | .nil | .bool _ | .number _ | .string _ | .vararg => []
  | .name n => [.read n]
  | .binary _ l r => exprItems l ++ exprItems r
  | .unary _ e => exprItems e
  | .member o _ => exprItems o
  | .index t k => exprItems t ++ exprItems k
  | .call f args => .call :: (exprItems f ++ exprsItems args)
  | .table entries => entriesItems entries
  | .function _ _ body => stmtsItems body

def exprsItems : List Expr → List Item
  | [] => []
  | e :: es => exprItems e ++ exprsItems es

def entriesItems : List Entry → List Item
  | [] => []
  | .positional v :: es => exprItems v ++ entriesItems es
  | .keyed k v :: es => exprItems k ++ exprItems v ++ entriesItems es

/-- Of a target that is no name the parts are read. -/
def targetsItems : List Expr → List Item
  | [] => []
  | e :: es => (if e.name?.isSome then [] else exprItems e) ++ targetsItems es

def stmtItems : Stmt → List Item
  | .declare id names values => [.bind (.declare id names values) (exprsItems values)]
  | .assign id targets values =>
    [.bind (.assign id targets values) (exprsItems values ++ targetsItems targets)]
  | .call f args => .call :: (exprItems f ++ exprsItems args)
  | .scope body => stmtsItems body
  | .branch clauses none => clausesItems clauses
  | .branch clauses (some body) => clausesItems clauses ++ stmtsItems body
  | .whileLoop cond body => exprItems cond ++ stmtsItems body
  | .repeatLoop body cond => stmtsItems body ++ exprItems cond
  | .numericFor _ start limit none body => exprItems start ++ exprItems limit ++ stmtsItems body
  | .numericFor _ start limit (some step) body =>
    exprItems start ++ exprItems limit ++ exprItems step ++ stmtsItems body
  | .genericFor _ exprs body => exprsItems exprs ++ stmtsItems body
  | .ret values => exprsItems values
  | .brk => []

def stmtsItems : List Stmt → List Item
  | [] => []
  | s :: ss => stmtItems s ++ stmtsItems ss

def clausesItems : List Clause → List Item
  | [] => []
  | .mk cond body :: cs => exprItems cond ++ stmtsItems body ++ clausesItems cs

end

/-- The outline of a block. -/
def Block.items (b : Block) : List Item := stmtsItems b

/-! ## Replacements -/

/-- What a binding statement holds is replaced, while it goes on to bind the same names. -/
inductive Revised (p : Pass) : Stmt → Stmt → Prop where
  | declare {id : NodeId} {names : List String} {values values' : List Expr} :
      ListStep (ExprStep p) values values' →
      Revised p (.declare id names values) (.declare id names values')
  | targets {id : NodeId} {targets targets' values : List Expr} :
      ListStep (ExprStep p) targets targets' →
      Revised p (.assign id targets values) (.assign id targets' values)
  | values {id : NodeId} {targets values values' : List Expr} :
      ListStep (ExprStep p) values values' →
      Revised p (.assign id targets values) (.assign id targets values')
  | hook {id : NodeId} {t v v' : Expr} :
      p.onStmt (.assign id [t] [v]) = some (.assign id [t] [v']) →
      Revised p (.assign id [t] [v]) (.assign id [t] [v'])

/-- The relation goes through lists and into statements. -/
structure Congruent (p : Pass) (A : List Item → List Item → Prop) : Prop where
  refl : ∀ xs, A xs xs
  append : ∀ {xs ys xs' ys'}, A xs ys → A xs' ys' → A (xs ++ xs') (ys ++ ys')
  bind : ∀ {s s' xs ys}, Revised p s s' → A xs ys → A [.bind s xs] [.bind s' ys]

/-- The answers of the pass are related to what they replace; no expression becomes a name. -/
structure Follows (p : Pass) (A : List Item → List Item → Prop) : Prop extends Congruent p A where
  name : ∀ e e', p.onExpr e = some e' → e'.name? = none
  expr : ∀ e e', p.onExpr e = some e' → A (exprItems e) (exprItems e')
  stmt : ∀ s s', p.onStmt s = some s' → A (stmtItems s) (stmtItems s')
  block : ∀ b b', p.block b = some b' → A (stmtsItems b) (stmtsItems b')

/-- A name is no place for a replacement. -/
theorem ExprStep.name?_eq_none {p : Pass} (hp : ∀ e e', p.onExpr e = some e' → e'.name? = none)
    {e e' : Expr} (h : ExprStep p e e') : e.name? = none ∧ e'.name? = none := by
  cases h with
  | hook h =>
      refine ⟨?_, hp _ _ h⟩
      cases e with
      | name n => contradiction
      | _ => rfl
  | _ => exact ⟨rfl, rfl⟩

namespace Follows

variable {p : Pass} {A : List Item → List Item → Prop}

-- Structural on the step.
mutual

theorem expr_step (hA : Follows p A) : {e e' : Expr} → ExprStep p e e' →
    A (exprItems e) (exprItems e')
  | _, _, .hook h => hA.expr _ _ h
  | _, _, .binaryLeft h => hA.append (expr_step hA h) (hA.refl _)
  | _, _, .binaryRight h => hA.append (hA.refl _) (expr_step hA h)
  | _, _, .unary h => (expr_step hA h :)
  | _, _, .member h => (expr_step hA h :)
  | _, _, .indexTable h => hA.append (expr_step hA h) (hA.refl _)
  | _, _, .indexKey h => hA.append (hA.refl _) (expr_step hA h)
  | _, _, .callFunc h => hA.append (hA.refl [.call]) (hA.append (expr_step hA h) (hA.refl _))
  | _, _, .callArgs h => hA.append (hA.refl [.call]) (hA.append (hA.refl _) (exprs_step hA h))
  | _, _, .table h => entries_step hA h
  | _, _, .function h => block_step hA h

theorem exprs_step (hA : Follows p A) : {es es' : List Expr} → ListStep (ExprStep p) es es' →
    A (exprsItems es) (exprsItems es')
  | _, _, .head h => hA.append (expr_step hA h) (hA.refl _)
  | _, _, .tail h => hA.append (hA.refl _) (exprs_step hA h)

theorem entries_step (hA : Follows p A) : {es es' : List Entry} → ListStep (EntryStep p) es es' →
    A (entriesItems es) (entriesItems es')
  | _, _, .head (.positional h) => hA.append (expr_step hA h) (hA.refl _)
  | _, _, .head (.key h) => hA.append (hA.append (expr_step hA h) (hA.refl _)) (hA.refl _)
  | _, _, .head (.value h) => hA.append (hA.append (hA.refl _) (expr_step hA h)) (hA.refl _)
  | .positional _ :: _, _, .tail h => hA.append (hA.refl _) (entries_step hA h)
  | .keyed _ _ :: _, _, .tail h => hA.append (hA.refl _) (entries_step hA h)

theorem targets_step (hA : Follows p A) : {es es' : List Expr} → ListStep (ExprStep p) es es' →
    A (targetsItems es) (targetsItems es')
  | _, _, .head h => by
      obtain ⟨hn, hn'⟩ := h.name?_eq_none hA.name
      rw [targetsItems, targetsItems, hn, hn']
      exact hA.append (expr_step hA h) (hA.refl _)
  | _, _, .tail h => hA.append (hA.refl _) (targets_step hA h)

theorem stmt_step (hA : Follows p A) : {s s' : Stmt} → StmtStep p s s' →
    A (stmtItems s) (stmtItems s')
  | _, _, .hook h => hA.stmt _ _ h
  | _, _, .declare h => hA.bind (.declare h) (exprs_step hA h)
  | _, _, .assignTargets h => hA.bind (.targets h) (hA.append (hA.refl _) (targets_step hA h))
  | _, _, .assignValues h => hA.bind (.values h) (hA.append (exprs_step hA h) (hA.refl _))
  | _, _, .callFunc h => hA.append (hA.refl [.call]) (hA.append (expr_step hA h) (hA.refl _))
  | _, _, .callArgs h => hA.append (hA.refl [.call]) (hA.append (hA.refl _) (exprs_step hA h))
  | _, _, .scope h => block_step hA h
  | .branch _ none, _, .clauses h => clauses_step hA h
  | .branch _ (some _), _, .clauses h => hA.append (clauses_step hA h) (hA.refl _)
  | _, _, .orElse h => hA.append (hA.refl _) (block_step hA h)
  | _, _, .whileCond h => hA.append (expr_step hA h) (hA.refl _)
  | _, _, .whileBody h => hA.append (hA.refl _) (block_step hA h)
  | _, _, .repeatBody h => hA.append (block_step hA h) (hA.refl _)
  | _, _, .repeatCond h => hA.append (hA.refl _) (expr_step hA h)
  | .numericFor _ _ _ none _, _, .forStart h =>
      hA.append (hA.append (expr_step hA h) (hA.refl _)) (hA.refl _)
  | .numericFor _ _ _ (some _) _, _, .forStart h =>
      hA.append (hA.append (hA.append (expr_step hA h) (hA.refl _)) (hA.refl _)) (hA.refl _)
  | .numericFor _ _ _ none _, _, .forLimit h =>
      hA.append (hA.append (hA.refl _) (expr_step hA h)) (hA.refl _)
  | .numericFor _ _ _ (some _) _, _, .forLimit h =>
      hA.append (hA.append (hA.append (hA.refl _) (expr_step hA h)) (hA.refl _)) (hA.refl _)
  | _, _, .forStep h => hA.append (hA.append (hA.refl _) (expr_step hA h)) (hA.refl _)
  | .numericFor _ _ _ none _, _, .forBody h => hA.append (hA.refl _) (block_step hA h)
  | .numericFor _ _ _ (some _) _, _, .forBody h => hA.append (hA.refl _) (block_step hA h)
  | _, _, .genericExprs h => hA.append (exprs_step hA h) (hA.refl _)
  | _, _, .genericBody h => hA.append (hA.refl _) (block_step hA h)
  | _, _, .ret h => exprs_step hA h

/-- A replacement relates the outlines before and after it as the answers of the hooks are related. -/
theorem block_step (hA : Follows p A) : {b b' : Block} → BlockStep p b b' →
    A (stmtsItems b) (stmtsItems b')
  | _, _, .hook h => hA.block _ _ h
  | _, _, .items h => stmts_step hA h

theorem stmts_step (hA : Follows p A) : {b b' : List Stmt} → ListStep (StmtStep p) b b' →
    A (stmtsItems b) (stmtsItems b')
  | _, _, .head h => hA.append (stmt_step hA h) (hA.refl _)
  | _, _, .tail h => hA.append (hA.refl _) (stmts_step hA h)

theorem clauses_step (hA : Follows p A) : {cs cs' : List Clause} → ListStep (ClauseStep p) cs cs' →
    A (clausesItems cs) (clausesItems cs')
  | _, _, .head (.cond h) => hA.append (hA.append (expr_step hA h) (hA.refl _)) (hA.refl _)
  | _, _, .head (.body h) => hA.append (hA.append (hA.refl _) (block_step hA h)) (hA.refl _)
  | .mk _ _ :: _, _, .tail h => hA.append (hA.refl _) (clauses_step hA h)

end

/-- A walk relates the outlines before and after it, if the relation is transitive. -/
theorem walk (hA : Follows p A) (htrans : ∀ {xs ys zs}, A xs ys → A ys zs → A xs zs) (b : Block) :
    A b.items (p.walk b).1.items :=
  Pass.walk_preserves (P := fun b' => A b.items b'.items)
    (fun _ _ hstep h => htrans h (block_step hA hstep)) (hA.refl _)

end Follows

/-! ## What is bound -/

/-- A call, a read, or a name that a statement binds, with the value it is bound to. -/
inductive Use where
  | call
  | read (name : String)
  | bind (name : String) (id : NodeId) (value : Option Expr)

namespace Stmt

/-- The names that a statement binds in the rest of its block. -/
def names : Stmt → List String
  | declare _ names _ => names
  | assign _ targets _ => targets.filterMap Expr.name?
  | _ => []

/-- How many names or targets a statement has. -/
def width : Stmt → Nat
  | declare _ names _ => names.length
  | assign _ targets _ => targets.length
  | _ => 0

/-- The names that a statement binds, with their values. -/
def bound : Stmt → List Use
  | declare id names values => (paired names values).map fun q => .bind q.1 id q.2
  | assign id targets values =>
    (paired targets values).filterMap fun q => q.1.name?.map fun n => .bind n id q.2
  | _ => []

end Stmt

def Use.bound? : Use → Option String
  | bind n _ _ => some n
  | _ => none

def Use.read? : Use → Option String
  | read n => some n
  | _ => none

/-! ## Readings of an outline -/

mutual

/-- All binding statements in an item, each with what it holds. -/
def Item.binders : Item → List (Stmt × List Item)
  | .bind s content => (s, content) :: itemsBinders content
  | .call | .read _ => []

def itemsBinders : List Item → List (Stmt × List Item)
  | [] => []
  | i :: is => i.binders ++ itemsBinders is

end

/-- A statement that binds a name. -/
structure Binder where
  id : NodeId
  /-- A declaration rather than an assignment. -/
  declares : Bool

/-- How a statement binds a name. -/
def Stmt.binder? (n : String) (s : Stmt) : Option Binder :=
  if n ∈ s.names then
    match s with
    | declare id _ _ => some ⟨id, true⟩
    | assign id _ _ => some ⟨id, false⟩
    | _ => none
  else none

section

variable (n : String)

mutual

/-- How a name is bound in an item, in the order in which that happens: what stands in a statement
comes before what the statement binds. -/
def Item.bindings : Item → List Binder
  | .bind s content => itemsBindings content ++ (s.binder? n).toList
  | .call | .read _ => []

def itemsBindings : List Item → List Binder
  | [] => []
  | i :: is => i.bindings ++ itemsBindings is

end

end

section

variable (covered : Stmt → Bool)

mutual

/-- The uses in an item, but for what covered statements hold. -/
def Item.uses : Item → List Use
  | .call => [.call]
  | .read n => [.read n]
  | .bind s content => s.bound ++ if covered s then [] else itemsUses content

def itemsUses : List Item → List Use
  | [] => []
  | i :: is => i.uses ++ itemsUses is

end

end

/-- All the uses. -/
def allUses (xs : List Item) : List Use := itemsUses (fun _ => false) xs

theorem itemsBinders_append (xs ys : List Item) :
    itemsBinders (xs ++ ys) = itemsBinders xs ++ itemsBinders ys := by
  induction xs with
  | nil => rfl
  | cons i xs ih => rw [List.cons_append, itemsBinders, itemsBinders, ih, List.append_assoc]

theorem itemsBindings_append (n : String) (xs ys : List Item) :
    itemsBindings n (xs ++ ys) = itemsBindings n xs ++ itemsBindings n ys := by
  induction xs with
  | nil => rfl
  | cons i xs ih => rw [List.cons_append, itemsBindings, itemsBindings, ih, List.append_assoc]

theorem itemsBindings_bind (n : String) (s : Stmt) (content : List Item) :
    itemsBindings n [.bind s content] = itemsBindings n content ++ (s.binder? n).toList := by
  rw [itemsBindings, itemsBindings, List.append_nil, Item.bindings]

mutual

theorem mem_bindings_item {n : String} {β : Binder} : (i : Item) →
    (β ∈ i.bindings n ↔ ∃ q ∈ i.binders, q.1.binder? n = some β)
  | .call | .read _ => by simp [Item.bindings, Item.binders]
  | .bind s content => by
      rw [Item.bindings, Item.binders, List.mem_append, mem_bindings_items content,
        Option.mem_toList, or_comm]
      simp only [List.mem_cons, or_and_right, exists_or, exists_eq_left]

/-- A name is bound by the statements that bind it. -/
theorem mem_bindings_items {n : String} {β : Binder} : (xs : List Item) →
    (β ∈ itemsBindings n xs ↔ ∃ q ∈ itemsBinders xs, q.1.binder? n = some β)
  | [] => by simp [itemsBindings, itemsBinders]
  | i :: xs => by
      simp only [itemsBindings, itemsBinders, List.mem_append, mem_bindings_item i,
        mem_bindings_items xs, or_and_right, exists_or]

end

theorem itemsBindings_of_binders {n : String} {xs : List Item} (h : itemsBinders xs = []) :
    itemsBindings n xs = [] := by
  rw [List.eq_nil_iff_forall_not_mem]
  intro β hβ
  obtain ⟨q, hq, -⟩ := (mem_bindings_items xs).mp hβ
  simp [h] at hq

theorem itemsUses_append (covered : Stmt → Bool) (xs ys : List Item) :
    itemsUses covered (xs ++ ys) = itemsUses covered xs ++ itemsUses covered ys := by
  induction xs with
  | nil => rfl
  | cons i xs ih => rw [List.cons_append, itemsUses, itemsUses, ih, List.append_assoc]

theorem Item.uses_bind (covered : Stmt → Bool) (s : Stmt) (content : List Item) :
    (Item.bind s content).uses covered
      = s.bound ++ if covered s then [] else itemsUses covered content := by
  rw [Item.uses]

theorem itemsUses_bind (covered : Stmt → Bool) (s : Stmt) (content : List Item) :
    itemsUses covered [.bind s content]
      = s.bound ++ if covered s then [] else itemsUses covered content := by
  rw [itemsUses, itemsUses, List.append_nil, Item.uses_bind]

/-! ### More is covered -/

section

variable {c c' : Stmt → Bool} {R : List Use → List Use → Prop}

section

variable (hrefl : ∀ us, us.filterMap Use.bound? = [] → R us us)
  (happend : ∀ {us vs us' vs'}, R us vs → R us' vs' → R (us ++ us') (vs ++ vs'))

include hrefl happend

mutual

theorem reveal_item : (i : Item) →
    (∀ q ∈ i.binders, c q.1 = false → c' q.1 = true → R (q.1.bound ++ itemsUses c q.2) q.1.bound) →
    (∀ q ∈ i.binders, c q.1 = c' q.1 → R q.1.bound q.1.bound) →
    (∀ q ∈ i.binders, c q.1 = true → c' q.1 = true) → R (i.uses c) (i.uses c')
  | .call, _, _, _ => hrefl [.call] rfl
  | .read n, _, _, _ => hrefl [.read n] rfl
  | .bind s content, hnew, hsame, hmono => by
      rw [Item.binders] at hnew hsame hmono
      obtain ⟨hs, hnew⟩ := List.forall_mem_cons.mp hnew
      obtain ⟨hs', hsame⟩ := List.forall_mem_cons.mp hsame
      obtain ⟨hs'', hmono⟩ := List.forall_mem_cons.mp hmono
      have hcontent := reveal_items content hnew hsame hmono
      rw [Item.uses_bind, Item.uses_bind]
      cases hc : c s with
      | true =>
          rw [hs'' hc]
          exact happend (hs' (hc.trans (hs'' hc).symm)) (hrefl [] rfl)
      | false =>
          cases hc' : c' s with
          | true => simpa using hs hc hc'
          | false => exact happend (hs' (hc.trans hc'.symm)) hcontent

/-- Two readings of an outline are related, if what they make of every statement is that only the
second covers, and of what all other statements bind. -/
theorem reveal_items : (xs : List Item) →
    (∀ q ∈ itemsBinders xs, c q.1 = false → c' q.1 = true →
      R (q.1.bound ++ itemsUses c q.2) q.1.bound) →
    (∀ q ∈ itemsBinders xs, c q.1 = c' q.1 → R q.1.bound q.1.bound) →
    (∀ q ∈ itemsBinders xs, c q.1 = true → c' q.1 = true) →
    R (itemsUses c xs) (itemsUses c' xs)
  | [], _, _, _ => hrefl [] rfl
  | i :: xs, hnew, hsame, hmono => by
      rw [itemsBinders, List.forall_mem_append] at hnew hsame hmono
      exact happend (reveal_item i hnew.1 hsame.1 hmono.1)
        (reveal_items xs hnew.2 hsame.2 hmono.2)

end

end

/-- With more covered less is seen. -/
theorem itemsUses_sublist {xs : List Item}
    (h : ∀ q ∈ itemsBinders xs, c q.1 = true → c' q.1 = true) :
    (itemsUses c' xs).Sublist (itemsUses c xs) :=
  reveal_items (R := fun us vs => vs.Sublist us) (fun _ _ => .refl _) .append xs
    (fun _ _ _ _ => List.sublist_append_left ..) (fun _ _ _ => .refl _) h

theorem itemsUses_congr {xs : List Item} (h : ∀ q ∈ itemsBinders xs, c q.1 = c' q.1) :
    itemsUses c xs = itemsUses c' xs := by
  refine reveal_items (R := Eq) (fun _ _ => rfl) (fun h h' => by rw [h, h']) xs ?_ (fun _ _ _ => rfl)
    fun q hq hc => by rw [← h q hq, hc]
  intro q hq hc hc'
  rw [h q hq, hc'] at hc
  contradiction

theorem itemsUses_sublist_allUses (c : Stmt → Bool) (xs : List Item) :
    (itemsUses c xs).Sublist (allUses xs) :=
  itemsUses_sublist fun _ _ h => by contradiction

/-- Where nothing is bound everything is seen. -/
theorem itemsUses_of_binders {xs : List Item} (h : itemsBinders xs = []) :
    itemsUses c xs = allUses xs :=
  itemsUses_congr fun q hq => by simp [h] at hq

mutual

theorem uses_subset_item {s : Stmt} {content : List Item} : (i : Item) → (s, content) ∈ i.binders →
    (∀ q ∈ i.binders, c q.1 = true → itemsBinders q.2 = []) →
    (Item.bind s content).uses c ⊆ i.uses c
  | .call, hmem, _ | .read n, hmem, _ => by simp [Item.binders] at hmem
  | .bind s' content', hmem, hflat => by
      rw [Item.binders] at hmem hflat
      obtain ⟨hs', hflat⟩ := List.forall_mem_cons.mp hflat
      rcases List.mem_cons.mp hmem with heq | hmem
      · cases heq
        exact List.Subset.refl _
      · have hsub := uses_subset_items content' hmem hflat
        rw [Item.uses_bind c s' content']
        cases hc : c s' with
        | true =>
            rw [hs' hc] at hmem
            contradiction
        | false => exact List.Subset.trans hsub (List.subset_append_right ..)

/-- What a statement shows is seen, if statements inside others stand in such that are not covered. -/
theorem uses_subset_items {s : Stmt} {content : List Item} : (xs : List Item) →
    (s, content) ∈ itemsBinders xs → (∀ q ∈ itemsBinders xs, c q.1 = true → itemsBinders q.2 = []) →
    (Item.bind s content).uses c ⊆ itemsUses c xs
  | [], hmem, _ => by simp [itemsBinders] at hmem
  | i :: xs, hmem, hflat => by
      rw [itemsBinders] at hmem hflat
      obtain ⟨hi, hxs⟩ := List.forall_mem_append.mp hflat
      rw [itemsUses]
      rcases List.mem_append.mp hmem with hmem | hmem
      · exact List.Subset.trans (uses_subset_item i hmem hi) (List.subset_append_left ..)
      · exact List.Subset.trans (uses_subset_items xs hmem hxs) (List.subset_append_right ..)

end

mutual

theorem bound_sublist_item : (i : Item) →
    (i.binders.flatMap fun q => q.1.bound).Sublist (i.uses fun _ => false)
  | .call | .read _ => by simp [Item.binders]
  | .bind s content => by
      rw [Item.binders, List.flatMap_cons, Item.uses_bind]
      exact (List.Sublist.refl _).append (bound_sublist content)

/-- Whatever the statements bind is among the uses. -/
theorem bound_sublist : (xs : List Item) →
    ((itemsBinders xs).flatMap fun q => q.1.bound).Sublist (allUses xs)
  | [] => .refl _
  | i :: xs => by
      rw [itemsBinders, List.flatMap_append, allUses, itemsUses]
      exact (bound_sublist_item i).append (bound_sublist xs)

end

end

end Devirt
