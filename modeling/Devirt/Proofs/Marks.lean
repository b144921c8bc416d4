import Devirt.Proofs.Replacement
import Devirt.Proofs.UsageTable

set_option autoImplicit false

/-! # A tree as a list of marks

The *marks* of a tree are what can be read off its text from left to right: the names that are read
and bound, the numbers, and one mark for every other node and for every statement that binds.  A
replacement below a node replaces a part of the list, so a relation between lists that does not look
at what stands around a part holds for a step as soon as it holds for the answers of the hooks
(`Answers.block_step`).

The names among the marks are those of the events (`Echoes`): the usage analysis reads the same
text.  In particular the value that is bound by an event has been read before (`Supplied`). -/

namespace Devirt

open Usage

inductive Mark where
  | read (name : String)
  | bind (name : String)
  | number
  | node
  | declaration
  | assignment
  deriving DecidableEq

namespace Mark

def isName : Mark → Bool
  | read _ | bind _ => true
  | number | node | declaration | assignment => false

def read? : Mark → Option String
  | read n => some n
  | _ => none

/-- The mark may stand in the value of a temporary. -/
def isPlain : Mark → Bool
  | read _ | number | node => true
  | bind _ | declaration | assignment => false

/-- An assignment weighs more than the declaration it may become. -/
def weight : Mark → Nat
  | assignment => 2
  | declaration => 1
  | _ => 0

end Mark

mutual

def exprMarks : Expr → List Mark
  | .nil | .bool _ | .string _ => []
  | .number _ => [.number]
  | .vararg => [.node]
  | .name n => [.read n]
  | .binary _ l r => exprMarks l ++ exprMarks r ++ [.node]
  | .unary _ e => exprMarks e ++ [.node]
  | .member o _ => exprMarks o ++ [.node]
  | .index t k => exprMarks t ++ exprMarks k ++ [.node]
  | .call f args => exprMarks f ++ exprsMarks args ++ [.node]
  | .table entries => entriesMarks entries ++ [.node]
  | .function _ _ body => stmtsMarks body ++ [.node]

def exprsMarks : List Expr → List Mark
  | [] => []
  | e :: es => exprMarks e ++ exprsMarks es

def entriesMarks : List Entry → List Mark
  | [] => []
  | .positional v :: es => exprMarks v ++ entriesMarks es
  | .keyed k v :: es => exprMarks k ++ exprMarks v ++ entriesMarks es

/-- A target that is a name is bound, of any other target the parts are read. -/
def targetsMarks : List Expr → List Mark
  | [] => []
  | .name n :: es => .bind n :: targetsMarks es
  | e :: es => exprMarks e ++ targetsMarks es

/-- The values of a statement come before what it binds. -/
def stmtMarks : Stmt → List Mark
  | .declare _ names values => exprsMarks values ++ names.map .bind ++ [.declaration]
  | .assign _ targets values => exprsMarks values ++ targetsMarks targets ++ [.assignment]
  | .call f args => exprMarks f ++ exprsMarks args
  | .scope body => stmtsMarks body
  | .branch clauses none => clausesMarks clauses
  | .branch clauses (some body) => clausesMarks clauses ++ stmtsMarks body
  | .whileLoop cond body => exprMarks cond ++ stmtsMarks body
  | .repeatLoop body cond => stmtsMarks body ++ exprMarks cond
  | .numericFor _ start limit none body => exprMarks start ++ exprMarks limit ++ stmtsMarks body
  | .numericFor _ start limit (some step) body =>
    exprMarks start ++ exprMarks limit ++ exprMarks step ++ stmtsMarks body
  | .genericFor _ exprs body => exprsMarks exprs ++ stmtsMarks body
  | .ret values => exprsMarks values
  | .brk => []

def stmtsMarks : List Stmt → List Mark
  | [] => []
  | s :: ss => stmtMarks s ++ stmtsMarks ss

def clausesMarks : List Clause → List Mark
  | [] => []
  | .mk cond body :: cs => exprMarks cond ++ stmtsMarks body ++ clausesMarks cs

end

/-- The marks of a block. -/
def Block.marks (b : Block) : List Mark := stmtsMarks b

theorem targetsMarks_cons {e : Expr} (h : e.name? = none) (es : List Expr) :
    targetsMarks (e :: es) = exprMarks e ++ targetsMarks es := by
  cases e with
  | name n => simp [Expr.name?] at h
  | _ => rfl

/-! ## Steps -/

/-- The relation does not look at what stands around a part of the list. -/
structure Closed (A : List Mark → List Mark → Prop) : Prop where
  left : ∀ zs {xs ys}, A xs ys → A (zs ++ xs) (zs ++ ys)
  right : ∀ zs {xs ys}, A xs ys → A (xs ++ zs) (ys ++ zs)

/-- The answers of the pass are related to what they replace; no expression becomes a name. -/
structure Answers (p : Pass) (A : List Mark → List Mark → Prop) : Prop where
  expr : ∀ e e', p.onExpr e = some e' → e'.name? = none ∧ A (exprMarks e) (exprMarks e')
  stmt : ∀ s s', p.onStmt s = some s' → A (stmtMarks s) (stmtMarks s')
  block : ∀ b b', p.block b = some b' → A (stmtsMarks b) (stmtsMarks b')

namespace Answers

variable {p : Pass} {A : List Mark → List Mark → Prop}

/-- A name is not replaced, and nothing becomes one. -/
theorem name?_step (hp : Answers p A) {e e' : Expr} (h : ExprStep p e e') :
    e.name? = none ∧ e'.name? = none := by
  cases h with
  | hook h =>
      refine ⟨?_, (hp.expr _ _ h).1⟩
      cases e with
      | name n => simp [Pass.onExpr] at h
      | _ => rfl
  | _ => exact ⟨rfl, rfl⟩

mutual

theorem expr_step (hA : Closed A) (hp : Answers p A) : {e e' : Expr} → ExprStep p e e' →
    A (exprMarks e) (exprMarks e')
  | _, _, .hook h => (hp.expr _ _ h).2
  | _, _, .binaryLeft h => hA.right _ (hA.right _ (expr_step hA hp h))
  | _, _, .binaryRight h => hA.right _ (hA.left _ (expr_step hA hp h))
  | _, _, .unary h => hA.right _ (expr_step hA hp h)
  | _, _, .member h => hA.right _ (expr_step hA hp h)
  | _, _, .indexTable h => hA.right _ (hA.right _ (expr_step hA hp h))
  | _, _, .indexKey h => hA.right _ (hA.left _ (expr_step hA hp h))
  | _, _, .callFunc h => hA.right _ (hA.right _ (expr_step hA hp h))
  | _, _, .callArgs h => hA.right _ (hA.left _ (exprs_step hA hp h))
  | _, _, .table h => hA.right _ (entries_step hA hp h)
  | _, _, .function h => hA.right _ (block_step hA hp h)

theorem exprs_step (hA : Closed A) (hp : Answers p A) : {es es' : List Expr} →
    ListStep (ExprStep p) es es' → A (exprsMarks es) (exprsMarks es')
  | _, _, .head h => hA.right _ (expr_step hA hp h)
  | _, _, .tail h => hA.left _ (exprs_step hA hp h)

theorem entries_step (hA : Closed A) (hp : Answers p A) : {es es' : List Entry} →
    ListStep (EntryStep p) es es' → A (entriesMarks es) (entriesMarks es')
  | _, _, .head (.positional h) => hA.right _ (expr_step hA hp h)
  | _, _, .head (.key h) => hA.right _ (hA.right _ (expr_step hA hp h))
  | _, _, .head (.value h) => hA.right _ (hA.left _ (expr_step hA hp h))
  | .positional _ :: _, _, .tail h => hA.left _ (entries_step hA hp h)
  | .keyed _ _ :: _, _, .tail h => hA.left _ (entries_step hA hp h)

theorem targets_step (hA : Closed A) (hp : Answers p A) : {es es' : List Expr} →
    ListStep (ExprStep p) es es' → A (targetsMarks es) (targetsMarks es')
  | _, _, .head h => by
      obtain ⟨hn, hn'⟩ := name?_step hp h
      rw [targetsMarks_cons hn, targetsMarks_cons hn']
      exact hA.right _ (expr_step hA hp h)
  | e :: es, _, .tail h => by
      have htail := targets_step hA hp h
      cases e with
      | name n => exact hA.left [.bind n] htail
      | _ => exact hA.left _ htail

theorem stmt_step (hA : Closed A) (hp : Answers p A) : {s s' : Stmt} → StmtStep p s s' →
    A (stmtMarks s) (stmtMarks s')
  | _, _, .hook h => hp.stmt _ _ h
  | _, _, .declare h => hA.right _ (hA.right _ (exprs_step hA hp h))
  | _, _, .assignTargets h => hA.right _ (hA.left _ (targets_step hA hp h))
  | _, _, .assignValues h => hA.right _ (hA.right _ (exprs_step hA hp h))
  | _, _, .callFunc h => hA.right _ (expr_step hA hp h)
  | _, _, .callArgs h => hA.left _ (exprs_step hA hp h)
  | _, _, .scope h => block_step hA hp h
  | .branch _ none, _, .clauses h => clauses_step hA hp h
  | .branch _ (some _), _, .clauses h => hA.right _ (clauses_step hA hp h)
  | _, _, .orElse h => hA.left _ (block_step hA hp h)
  | _, _, .whileCond h => hA.right _ (expr_step hA hp h)
  | _, _, .whileBody h => hA.left _ (block_step hA hp h)
  | _, _, .repeatBody h => hA.right _ (block_step hA hp h)
  | _, _, .repeatCond h => hA.left _ (expr_step hA hp h)
  | .numericFor _ _ _ none _, _, .forStart h => hA.right _ (hA.right _ (expr_step hA hp h))
  | .numericFor _ _ _ (some _) _, _, .forStart h =>
      hA.right _ (hA.right _ (hA.right _ (expr_step hA hp h)))
  | .numericFor _ _ _ none _, _, .forLimit h => hA.right _ (hA.left _ (expr_step hA hp h))
  | .numericFor _ _ _ (some _) _, _, .forLimit h =>
      hA.right _ (hA.right _ (hA.left _ (expr_step hA hp h)))
  | _, _, .forStep h => hA.right _ (hA.left _ (expr_step hA hp h))
  | .numericFor _ _ _ none _, _, .forBody h => hA.left _ (block_step hA hp h)
  | .numericFor _ _ _ (some _) _, _, .forBody h => hA.left _ (block_step hA hp h)
  | _, _, .genericExprs h => hA.right _ (exprs_step hA hp h)
  | _, _, .genericBody h => hA.left _ (block_step hA hp h)
  | _, _, .ret h => exprs_step hA hp h

/-- A step relates the marks before and after it as the answers of the hooks are related. -/
theorem block_step (hA : Closed A) (hp : Answers p A) : {b b' : Block} → BlockStep p b b' →
    A (stmtsMarks b) (stmtsMarks b')
  | _, _, .hook h => hp.block _ _ h
  | _, _, .items h => stmts_step hA hp h

theorem stmts_step (hA : Closed A) (hp : Answers p A) : {b b' : List Stmt} →
    ListStep (StmtStep p) b b' → A (stmtsMarks b) (stmtsMarks b')
  | _, _, .head h => hA.right _ (stmt_step hA hp h)
  | _, _, .tail h => hA.left _ (stmts_step hA hp h)

theorem clauses_step (hA : Closed A) (hp : Answers p A) : {cs cs' : List Clause} →
    ListStep (ClauseStep p) cs cs' → A (clausesMarks cs) (clausesMarks cs')
  | _, _, .head (.cond h) => hA.right _ (hA.right _ (expr_step hA hp h))
  | _, _, .head (.body h) => hA.right _ (hA.left _ (block_step hA hp h))
  | .mk _ _ :: _, _, .tail h => hA.left _ (clauses_step hA hp h)

end

end Answers

/-! ## Marks and events -/

/-- The mark of a name that an event reads or binds. -/
def Usage.Event.mark? : Event → Option Mark
  | .read n _ => some (.read n)
  | .declare n .. | .assign n .. => some (.bind n)
  | .introduce _ => none

theorem mark?_eq_bind {e : Event} {n : String} :
    e.mark? = some (.bind n) ↔ e.name = n ∧ e.binding? ≠ none := by
  cases e <;> simp [Event.mark?, Event.name, Event.binding?]

theorem mark?_eq_read {e : Event} {n : String} :
    e.mark? = some (.read n) ↔ ∃ place, e = .read n place := by
  cases e <;> simp [Event.mark?]

/-- After the marks `seen`: whatever the value of a binding event reads, has been read. -/
def Supplied : List Mark → List Event → Prop
  | _, [] => True
  | seen, e :: es =>
    (∀ home d v, e.binding? = some (home, d, some v) → ∀ m, .read m ∈ exprMarks v →
        .read m ∈ seen) ∧
      Supplied (seen ++ e.mark?.toList) es

namespace Supplied

theorem mono {seen seen' : List Mark} {es : List Event} (h : Supplied seen es)
    (hsub : seen ⊆ seen') : Supplied seen' es := by
  induction es generalizing seen seen' with
  | nil => trivial
  | cons e es ih =>
      refine ⟨fun home d v hv m hm => hsub (h.1 home d v hv m hm), ih h.2 ?_⟩
      exact List.append_subset.mpr
        ⟨List.Subset.trans hsub (List.subset_append_left ..), List.subset_append_right ..⟩

theorem append_iff {seen : List Mark} {es es' : List Event} :
    Supplied seen (es ++ es') ↔
      Supplied seen es ∧ Supplied (seen ++ es.filterMap Event.mark?) es' := by
  induction es generalizing seen with
  | nil => simp [Supplied]
  | cons e es ih =>
      have hmarks : (e :: es).filterMap Event.mark? = e.mark?.toList ++ es.filterMap Event.mark? := by
        cases h : e.mark? <;> simp [h]
      rw [hmarks, ← List.append_assoc, List.cons_append, Supplied, ih, Supplied, and_assoc]

/-- Bindings whose values are known are supplied if those values are. -/
theorem of_forall {seen : List Mark} {es : List Event}
    (h : ∀ e ∈ es, ∀ home d v, e.binding? = some (home, d, some v) → ∀ m, .read m ∈ exprMarks v →
      .read m ∈ seen) : Supplied seen es := by
  induction es generalizing seen with
  | nil => trivial
  | cons e es ih =>
      refine ⟨h e (by simp), ih fun e' he' home d v hv m hm => ?_⟩
      exact List.mem_append_left _ (h e' (by simp [he']) home d v hv m hm)

end Supplied

/-- After the marks `seen`, the marks and the events of one text. -/
structure Echoes (seen xs : List Mark) (es : List Event) : Prop where
  names : es.filterMap Event.mark? = xs.filter Mark.isName
  supplied : Supplied seen es

namespace Echoes

variable {seen seen' xs ys : List Mark} {es es' : List Event}

theorem nil : Echoes seen [] [] := ⟨rfl, trivial⟩

theorem mono (h : Echoes seen xs es) (hsub : seen ⊆ seen') : Echoes seen' xs es :=
  ⟨h.names, h.supplied.mono hsub⟩

theorem read_mem (h : Echoes seen xs es) {m : String} :
    .read m ∈ es.filterMap Event.mark? ↔ .read m ∈ xs := by
  rw [h.names, List.mem_filter]
  exact and_iff_left rfl

/-- What comes later may use what the first part reads. -/
theorem seq (h : Echoes seen xs es) (h' : Echoes (seen ++ xs.filter Mark.isName) ys es') :
    Echoes seen (xs ++ ys) (es ++ es') := by
  refine ⟨by rw [List.filterMap_append, List.filter_append, h.names, h'.names], ?_⟩
  rw [Supplied.append_iff, h.names]
  exact ⟨h.supplied, h'.supplied⟩

theorem append (h : Echoes [] xs es) (h' : Echoes [] ys es') : Echoes [] (xs ++ ys) (es ++ es') :=
  h.seq (h'.mono (List.nil_subset _))

/-- A mark that is no name has no event. -/
theorem silent (h : Echoes seen xs es) {ms : List Mark} (hms : ms.filter Mark.isName = []) :
    Echoes seen (xs ++ ms) es :=
  ⟨by rw [h.names, List.filter_append, hms, List.append_nil], h.supplied⟩

theorem node (h : Echoes seen xs es) : Echoes seen (xs ++ [.node]) es := h.silent rfl

theorem introduce (h : Echoes seen xs es) (names : List String) :
    Echoes seen xs (names.map .introduce ++ es) := by
  have hnames : (names.map Event.introduce).filterMap Event.mark? = [] := by
    simp [Event.mark?]
  refine ⟨by rw [List.filterMap_append, hnames, h.names, List.nil_append], ?_⟩
  rw [Supplied.append_iff, hnames, List.append_nil]
  refine ⟨Supplied.of_forall fun e he home d v hv => ?_, h.supplied⟩
  obtain ⟨n, -, rfl⟩ := List.mem_map.mp he
  contradiction

end Echoes

theorem mem_of_paired {α : Type} {items : List α} {values : List Expr} {x : α} {v : Expr}
    (h : (x, some v) ∈ paired items values) : v ∈ values := by
  unfold paired at h
  split at h
  · have hmem := List.of_mem_zip h
    simpa using hmem.2
  · simp at h

theorem paired_fst {α : Type} (items : List α) (values : List Expr) :
    (paired items values).map Prod.fst = items := by
  unfold paired
  split
  · rename_i h
    simp [List.map_fst_zip, h]
  · simp [Function.comp_def]

theorem exprMarks_subset {e : Expr} {es : List Expr} (h : e ∈ es) :
    exprMarks e ⊆ exprsMarks es := by
  induction es with
  | nil => simp at h
  | cons e' es ih =>
      rcases List.mem_cons.mp h with rfl | h
      · exact List.subset_append_left ..
      · exact List.Subset.trans (ih h) (List.subset_append_right ..)

/-- The names of a declaration are bound to its values. -/
theorem echoes_names (place : Place) (id : NodeId) (names : List String) (values : List Expr) :
    Echoes ((exprsMarks values).filter Mark.isName) (names.map .bind)
      ((paired names values).map fun p => .declare p.1 place id p.2) := by
  constructor
  · have hfilter : (names.map Mark.bind).filter Mark.isName = names.map Mark.bind := by
      simp [List.filter_eq_self, Mark.isName]
    calc ((paired names values).map fun p => Event.declare p.1 place id p.2).filterMap Event.mark?
        = ((paired names values).map Prod.fst).map Mark.bind := by
          induction paired names values <;> simp_all [Event.mark?]
      _ = (names.map Mark.bind).filter Mark.isName := by rw [paired_fst, hfilter]
  · refine Supplied.of_forall fun e he home d v hv m hm => ?_
    obtain ⟨⟨n, w⟩, hp, rfl⟩ := List.mem_map.mp he
    obtain rfl : w = some v := by simp [Event.binding?] at hv; exact hv.2.2
    exact List.mem_filter.mpr ⟨exprMarks_subset (mem_of_paired hp) hm, rfl⟩

mutual

theorem echoes_expr (place : Place) : (e : Expr) → (next : Nat) →
    Echoes [] (exprMarks e) (exprEvents place e next).1
  | .nil, _ | .bool _, _ | .string _, _ => .nil
  | .number _, _ => ⟨rfl, trivial⟩
  | .vararg, _ => ⟨rfl, trivial⟩
  | .name n, _ => ⟨rfl, by simp [exprEvents, Supplied, Event.binding?]⟩
  | .binary _ l r, next => ((echoes_expr place l next).append (echoes_expr place r _)).node
  | .unary _ e, next => (echoes_expr place e next).node
  | .member o _, next => (echoes_expr place o next).node
  | .index t k, next => ((echoes_expr place t next).append (echoes_expr place k _)).node
  | .call f args, next => ((echoes_expr place f next).append (echoes_exprs place args _)).node
  | .table entries, next => (echoes_entries place entries next).node
  | .function params _ body, next =>
      ((echoes_stmts (place ++ [next]) body (next + 1)).introduce params).node

theorem echoes_exprs (place : Place) : (es : List Expr) → (next : Nat) →
    Echoes [] (exprsMarks es) (exprsEvents place es next).1
  | [], _ => .nil
  | e :: es, next => (echoes_expr place e next).append (echoes_exprs place es _)

theorem echoes_entries (place : Place) : (es : List Entry) → (next : Nat) →
    Echoes [] (entriesMarks es) (entriesEvents place es next).1
  | [], _ => .nil
  | .positional v :: es, next => (echoes_expr place v next).append (echoes_entries place es _)
  | .keyed k v :: es, next =>
      ((echoes_expr place k next).append (echoes_expr place v _)).append
        (echoes_entries place es _)

/-- Targets are bound to values that have been read. -/
theorem echoes_targets (place : Place) (id : NodeId) {seen : List Mark} :
    (es : List Expr) → (vs : List (Option Expr)) → (next : Nat) →
    (∀ v, some v ∈ vs → ∀ m, .read m ∈ exprMarks v → .read m ∈ seen) →
    Echoes seen (targetsMarks es) (targetsEvents place id vs es next).1
  | [], _, _, _ => .nil
  | e :: es, vs, next, hvs => by
      have hrest := fun next => echoes_targets place id es (vs.drop 1) next fun v hv =>
        hvs v (List.mem_of_mem_drop hv)
      cases hn : e.name? with
      | none =>
          rw [targetsEvents_cons hn, targetsMarks_cons hn]
          exact ((echoes_expr place e next).mono (List.nil_subset _)).seq
            ((hrest _).mono (List.subset_append_left ..))
      | some n =>
          obtain rfl := eq_name_of_name? hn
          have hbind : Echoes seen [.bind n] [.assign n place id vs.head?.join] := by
            refine ⟨rfl, Supplied.of_forall fun e he home d v hv => hvs v ?_⟩
            rw [List.mem_singleton] at he
            subst he
            cases vs with
            | nil => simp [Event.binding?] at hv
            | cons w vs =>
                simp only [Event.binding?, List.head?_cons, Option.join_some, Option.some.injEq,
                  Prod.mk.injEq] at hv
                simp [hv.2.2]
          exact hbind.seq ((hrest _).mono (List.subset_append_left ..))

theorem echoes_stmt (place : Place) : (s : Stmt) → (next : Nat) →
    Echoes [] (stmtMarks s) (stmtEvents place s next).1
  | .declare id names values, next => by
      have hvalues := echoes_exprs place values next
      exact (hvalues.seq (echoes_names place id names values)).silent rfl
  | .assign id targets values, next => by
      have hvalues := echoes_exprs place values next
      refine (hvalues.seq (echoes_targets place id targets _ _ fun v hv m hm => ?_)).silent rfl
      have hmem : v ∈ values := by
        split at hv
        · simpa using hv
        · simp at hv
      exact List.mem_filter.mpr ⟨exprMarks_subset hmem hm, rfl⟩
  | .call f args, next => (echoes_expr place f next).append (echoes_exprs place args _)
  | .scope body, next => echoes_stmts (place ++ [next]) body (next + 1)
  | .branch clauses none, next => echoes_clauses place clauses next
  | .branch clauses (some body), next =>
      (echoes_clauses place clauses next).append (echoes_stmts _ body _)
  | .whileLoop cond body, next => (echoes_expr place cond next).append (echoes_stmts _ body _)
  | .repeatLoop body cond, next => (echoes_stmts _ body _).append (echoes_expr _ cond _)
  | .numericFor var start limit none body, next =>
      ((echoes_expr place start next).append (echoes_expr place limit _)).append
        ((echoes_stmts _ body _).introduce [var])
  | .numericFor var start limit (some step) body, next =>
      (((echoes_expr place start next).append (echoes_expr place limit _)).append
        (echoes_expr place step _)).append ((echoes_stmts _ body _).introduce [var])
  | .genericFor names exprs body, next => by
      let inner := (exprsEvents place exprs next).2
      have h := (echoes_exprs place exprs next).append
        ((echoes_stmts (place ++ [inner]) body (inner + 1)).introduce names)
      rwa [← List.append_assoc] at h
  | .ret values, next => echoes_exprs place values next
  | .brk, _ => .nil

theorem echoes_stmts (place : Place) : (b : List Stmt) → (next : Nat) →
    Echoes [] (stmtsMarks b) (stmtsEvents place b next).1
  | [], _ => .nil
  | s :: b, next => (echoes_stmt place s next).append (echoes_stmts place b _)

theorem echoes_clauses (place : Place) : (cs : List Clause) → (next : Nat) →
    Echoes [] (clausesMarks cs) (clausesEvents place cs next).1
  | [], _ => .nil
  | .mk cond body :: cs, next =>
      ((echoes_expr place cond next).append (echoes_stmts _ body _)).append
        (echoes_clauses place cs _)

end

/-- The names among the marks of a block are those of its events. -/
theorem echoes_block (b : Block) : Echoes [] b.marks (events b) := echoes_stmts [0] b 1

/-- The reads of an entry are the reads among the marks. -/
theorem count_read_marks (b : Block) (n : String) :
    b.marks.count (.read n) = (track n (events b)).info.reads := by
  have hcount : ∀ es : List Event,
      (es.filterMap Event.mark?).count (.read n) = es.countP (·.isReadOf n) := by
    intro es
    induction es with
    | nil => rfl
    | cons e es ih =>
        rw [List.countP_cons, ← ih, List.filterMap_cons]
        cases e <;> simp [Event.mark?, Event.isReadOf, List.count_cons]
  rw [reads_track, ← hcount, (echoes_block b).names, List.count_filter rfl]

end Devirt
