import Devirt.Proofs.UsageTable

set_option autoImplicit false

/-! # Where names are mentioned

A tree, read as text, is a list of *passages*: mentions of names, and blocks with passages inside.  A name is
mentioned as an expression, as what a `local` or an assignment binds, or as a loop variable or a parameter.
The values of a statement come before its targets.  A loop variable or a parameter stands inside the block
of the body, before the body, and an `until` condition inside that block, behind it.

A block is told by its *address*: its index among the passages of the block around it, below the address of
that block.  So a block is another one, or lies inside it, exactly if the address of the other one begins
its own.

The events from which the usage table is made are those of the passages (`events_eq`), where blocks have
numbers instead of addresses. -/

namespace Devirt

namespace Usage

/-! ## Passages -/

/-- A name as one of the targets of a statement. -/
structure Target where
  id : NodeId
  /-- The statement is an assignment, not a `local`. -/
  assigns : Bool
  /-- How many targets stand before this one. -/
  before : Nat
  /-- How many targets stand behind this one. -/
  after : Nat
  /-- The values of the statement. -/
  values : List Expr

namespace Target

/-- How many targets the statement has. -/
def width (t : Target) : Nat := t.before + 1 + t.after

/-- The value for the target, if the statement has as many values as targets. -/
def value (t : Target) : Option Expr := if t.width = t.values.length then t.values[t.before]? else none

theorem isSome_value {t : Target} : t.value.isSome = true ↔ t.width = t.values.length := by
  unfold value
  split
  · rename_i h
    have hlt : t.before < t.values.length := by
      rw [← h, width]
      omega
    simp [hlt, h]
  · rename_i h
    simp [h]

end Target

/-- As what a name is mentioned. -/
inductive Role where
  /-- As an expression. -/
  | read
  /-- As a target of a `local` or of an assignment. -/
  | bind (target : Target)
  /-- As a loop variable or a parameter. -/
  | introduce

inductive Passage where
  | mention (name : String) (role : Role)
  | block (inside : List Passage)

def namesPassages (id : NodeId) (values : List Expr) (before : Nat) : List String → List Passage
  | [] => []
  | n :: ns =>
    .mention n (.bind ⟨id, false, before, ns.length, values⟩) :: namesPassages id values (before + 1) ns

def introductions (names : List String) : List Passage := names.map fun n => .mention n .introduce

mutual

def exprPassages : Expr → List Passage
  | .nil | .bool _ | .number _ | .string _ | .vararg => []
  | .name n => [.mention n .read]
  | .binary _ l r => exprPassages l ++ exprPassages r
  | .unary _ e => exprPassages e
  | .member o _ => exprPassages o
  | .index t k => exprPassages t ++ exprPassages k
  | .call f args => exprPassages f ++ exprsPassages args
  | .table entries => entriesPassages entries
  | .function params _ body => [.block (introductions params ++ stmtsPassages body)]

def exprsPassages : List Expr → List Passage
  | [] => []
  | e :: es => exprPassages e ++ exprsPassages es

def entriesPassages : List Entry → List Passage
  | [] => []
  | .positional v :: es => exprPassages v ++ entriesPassages es
  | .keyed k v :: es => exprPassages k ++ exprPassages v ++ entriesPassages es

/-- A target that is no plain name is an expression like any other. -/
def targetsPassages (id : NodeId) (values : List Expr) (before : Nat) : List Expr → List Passage
  | [] => []
  | .name n :: es =>
    .mention n (.bind ⟨id, true, before, es.length, values⟩) ::
      targetsPassages id values (before + 1) es
  | e :: es => exprPassages e ++ targetsPassages id values (before + 1) es

def stmtPassages : Stmt → List Passage
  | .declare id names values => exprsPassages values ++ namesPassages id values 0 names
  | .assign id targets values => exprsPassages values ++ targetsPassages id values 0 targets
  | .call f args => exprPassages f ++ exprsPassages args
  | .scope body => [.block (stmtsPassages body)]
  | .branch clauses none => clausesPassages clauses
  | .branch clauses (some body) => clausesPassages clauses ++ [.block (stmtsPassages body)]
  | .whileLoop cond body => exprPassages cond ++ [.block (stmtsPassages body)]
  | .repeatLoop body cond => [.block (stmtsPassages body ++ exprPassages cond)]
  | .numericFor var start limit none body =>
    exprPassages start ++ exprPassages limit ++ [.block (introductions [var] ++ stmtsPassages body)]
  | .numericFor var start limit (some step) body =>
    exprPassages start ++ exprPassages limit ++ exprPassages step ++
      [.block (introductions [var] ++ stmtsPassages body)]
  | .genericFor names exprs body =>
    exprsPassages exprs ++ [.block (introductions names ++ stmtsPassages body)]
  | .ret values => exprsPassages values
  | .brk => []

def stmtsPassages : List Stmt → List Passage
  | [] => []
  | s :: ss => stmtPassages s ++ stmtsPassages ss

def clausesPassages : List Clause → List Passage
  | [] => []
  | .mk cond body :: cs =>
    exprPassages cond ++ [.block (stmtsPassages body)] ++ clausesPassages cs

end

/-! ## Mentions -/

/-- Indices of passages, outermost first. -/
abbrev Address := List Nat

structure Mention where
  name : String
  role : Role
  /-- The block in which the name is mentioned. -/
  block : Address

namespace Mention

/-- The name is mentioned as an expression. -/
def isReadOf (n : String) (m : Mention) : Bool :=
  match m.role with
  | .read => m.name == n
  | _ => false

/-- The name is bound by a `local` or by an assignment. -/
def isBindingOf (n : String) (m : Mention) : Bool :=
  match m.role with
  | .bind _ => m.name == n
  | _ => false

/-- The name is bound by an assignment. -/
def isAssignOf (n : String) (m : Mention) : Bool :=
  match m.role with
  | .bind t => t.assigns && m.name == n
  | _ => false

/-- The mention as it is seen from the block around, of which its own is the passage `k`. -/
def within (k : Nat) (m : Mention) : Mention := { m with block := k :: m.block }

end Mention

mutual

/-- The mentions in the passage `k` of a block, with addresses below that of the block. -/
def passageMentions (k : Nat) : Passage → List Mention
  | .mention n role => [⟨n, role, []⟩]
  | .block inside => (passagesMentions 0 inside).map (Mention.within k)

/-- The mentions in passages from index `k` on, in the order of the text. -/
def passagesMentions (k : Nat) : List Passage → List Mention
  | [] => []
  | x :: xs => passageMentions k x ++ passagesMentions (k + 1) xs

end

end Usage

/-- The mentions of names in a block, in the order of the text. -/
def Block.mentions (b : Block) : List Usage.Mention := Usage.passagesMentions 0 (Usage.stmtsPassages b)

namespace Usage

/-! ## Events of passages -/

/-- The event of mentioning a name at a place. -/
def Role.event (name : String) (place : Place) : Role → Event
  | .read => .read name place
  | .bind t =>
    if t.assigns then .assign name place t.id t.value else .declare name place t.id t.value
  | .introduce => .introduce name

mutual

/-- The events of a passage at a place, and the next block number. -/
def passageEvents (place : Place) : Passage → Nat → List Event × Nat
  | .mention n role, next => ([role.event n place], next)
  | .block inside, next => passagesEvents (place ++ [next]) inside (next + 1)

def passagesEvents (place : Place) : List Passage → Nat → List Event × Nat
  | [], next => ([], next)
  | x :: xs, next =>
    let (ys, next) := passageEvents place x next
    let (zs, next) := passagesEvents place xs next
    (ys ++ zs, next)

end

theorem passagesEvents_append (place : Place) (xs ys : List Passage) (next : Nat) :
    passagesEvents place (xs ++ ys) next =
      ((passagesEvents place xs next).1 ++
          (passagesEvents place ys (passagesEvents place xs next).2).1,
        (passagesEvents place ys (passagesEvents place xs next).2).2) := by
  induction xs generalizing next with
  | nil => rfl
  | cons x xs ih => simp only [List.cons_append, passagesEvents, ih, List.append_assoc]

theorem passagesEvents_mention (place : Place) (n : String) (role : Role) (xs : List Passage)
    (next : Nat) : passagesEvents place (.mention n role :: xs) next =
      (role.event n place :: (passagesEvents place xs next).1, (passagesEvents place xs next).2) :=
  rfl

theorem passagesEvents_block (place : Place) (inside : List Passage) (next : Nat) :
    passagesEvents place [.block inside] next
      = passagesEvents (place ++ [next]) inside (next + 1) := by
  simp only [passagesEvents, passageEvents, List.append_nil]

theorem passagesEvents_introductions (place : Place) (names : List String) (next : Nat) :
    passagesEvents place (introductions names) next = (names.map .introduce, next) := by
  induction names with
  | nil => rfl
  | cons n ns ih =>
      rw [introductions] at ih
      simp only [introductions, List.map_cons, passagesEvents_mention, ih, Role.event]

/-- As many values as names are paired with them one after the other. -/
theorem passagesEvents_names (place : Place) (id : NodeId) (values : List Expr) (next : Nat)
    {names : List String} {before : Nat} (h : before + names.length = values.length) :
    passagesEvents place (namesPassages id values before names) next
      = ((names.zip ((values.drop before).map some)).map fun p => .declare p.1 place id p.2, next) := by
  induction names generalizing before with
  | nil => rfl
  | cons n ns ih =>
      rw [List.length_cons] at h
      have hlt : before < values.length := by omega
      have hwidth : before + 1 + ns.length = values.length := by omega
      have hvalue : Target.value ⟨id, false, before, ns.length, values⟩ = some values[before] := by
        simp [Target.value, Target.width, hwidth, hlt]
      rw [namesPassages, passagesEvents_mention, ih hwidth, List.drop_eq_getElem_cons hlt,
        List.map_cons, List.zip_cons_cons, List.map_cons]
      simp only [Role.event, hvalue]
      rfl

/-- Too many or too few values are paired with no name. -/
theorem passagesEvents_names_of_ne (place : Place) (id : NodeId) (values : List Expr) (next : Nat)
    {names : List String} {before : Nat} (h : before + names.length ≠ values.length) :
    passagesEvents place (namesPassages id values before names) next
      = (names.map fun n => .declare n place id none, next) := by
  induction names generalizing before with
  | nil => rfl
  | cons n ns ih =>
      rw [List.length_cons] at h
      have hwidth : before + 1 + ns.length ≠ values.length := by omega
      rw [namesPassages, passagesEvents_mention, ih hwidth]
      simp [Role.event, Target.value, Target.width, hwidth]

theorem passagesEvents_paired (place : Place) (id : NodeId) (names : List String)
    (values : List Expr) (next : Nat) :
    passagesEvents place (namesPassages id values 0 names) next
      = ((paired names values).map fun p => .declare p.1 place id p.2, next) := by
  unfold paired
  split
  · rename_i h
    rw [passagesEvents_names place id values next (by omega), List.drop_zero]
  · rename_i h
    rw [passagesEvents_names_of_ne place id values next (by omega), List.map_map]
    rfl

/-- What is left of the values for the targets that are left. -/
def valuesFor (width before : Nat) (values : List Expr) : List (Option Expr) :=
  if width = values.length then (values.map some).drop before else []

theorem drop_valuesFor (width before : Nat) (values : List Expr) :
    (valuesFor width before values).drop 1 = valuesFor width (before + 1) values := by
  unfold valuesFor
  split
  · rw [List.drop_drop]
  · rfl

theorem head_valuesFor (t : Target) : (valuesFor t.width t.before t.values).head?.join = t.value := by
  unfold valuesFor Target.value
  split
  · rw [List.head?_drop, List.getElem?_map]
    cases t.values[t.before]? <;> rfl
  · rfl

/-! ## The events of a tree are those of its passages -/

mutual

theorem exprEvents_eq (place : Place) : (e : Expr) → (next : Nat) →
    exprEvents place e next = passagesEvents place (exprPassages e) next
  | .nil, _ | .bool _, _ | .number _, _ | .string _, _ | .vararg, _ | .name _, _ => rfl
  | .binary _ l r, next => by
      simp only [exprEvents, exprPassages, passagesEvents_append, exprEvents_eq place l,
        exprEvents_eq place r]
  | .unary _ e, next => exprEvents_eq place e next
  | .member o _, next => exprEvents_eq place o next
  | .index t k, next => by
      simp only [exprEvents, exprPassages, passagesEvents_append, exprEvents_eq place t,
        exprEvents_eq place k]
  | .call f args, next => by
      simp only [exprEvents, exprPassages, passagesEvents_append, exprEvents_eq place f,
        exprsEvents_eq place args]
  | .table entries, next => entriesEvents_eq place entries next
  | .function params _ body, next => by
      simp only [exprEvents, exprPassages, passagesEvents_block, passagesEvents_append,
        passagesEvents_introductions, stmtsEvents_eq (place ++ [next]) body]

theorem exprsEvents_eq (place : Place) : (es : List Expr) → (next : Nat) →
    exprsEvents place es next = passagesEvents place (exprsPassages es) next
  | [], _ => rfl
  | e :: es, next => by
      simp only [exprsEvents, exprsPassages, passagesEvents_append, exprEvents_eq place e,
        exprsEvents_eq place es]

theorem entriesEvents_eq (place : Place) : (es : List Entry) → (next : Nat) →
    entriesEvents place es next = passagesEvents place (entriesPassages es) next
  | [], _ => rfl
  | .positional v :: es, next => by
      simp only [entriesEvents, entriesPassages, passagesEvents_append, exprEvents_eq place v,
        entriesEvents_eq place es]
  | .keyed k v :: es, next => by
      simp only [entriesEvents, entriesPassages, passagesEvents_append, exprEvents_eq place k,
        exprEvents_eq place v, entriesEvents_eq place es]

theorem targetsEvents_eq (place : Place) (id : NodeId) (values : List Expr) : (es : List Expr) →
    (before next : Nat) →
    targetsEvents place id (valuesFor (before + es.length) before values) es next
      = passagesEvents place (targetsPassages id values before es) next
  | [], _, _ => rfl
  | e :: es, before, next => by
      have hwidth : before + (e :: es).length = before + 1 + es.length := by
        rw [List.length_cons]
        omega
      have hrest := targetsEvents_eq place id values es (before + 1)
      rw [hwidth]
      cases hn : e.name? with
      | some n =>
          obtain rfl := eq_name_of_name? hn
          have hvalue := head_valuesFor ⟨id, true, before, es.length, values⟩
          simp only [Target.width] at hvalue
          simp only [targetsEvents, targetsPassages, passagesEvents_mention, drop_valuesFor, hrest,
            hvalue]
          rfl
      | none =>
          have htargets : targetsPassages id values before (e :: es)
              = exprPassages e ++ targetsPassages id values (before + 1) es := by
            cases e <;> first | rfl | contradiction
          rw [targetsEvents_cons hn, htargets, passagesEvents_append, drop_valuesFor,
            exprEvents_eq place e, hrest]

theorem stmtEvents_eq (place : Place) : (s : Stmt) → (next : Nat) →
    stmtEvents place s next = passagesEvents place (stmtPassages s) next
  | .declare id names values, next => by
      simp only [stmtEvents, stmtPassages, passagesEvents_append, exprsEvents_eq place values,
        passagesEvents_paired]
  | .assign id targets values, next => by
      have htargets := targetsEvents_eq place id values targets 0
      rw [Nat.zero_add, valuesFor, List.drop_zero] at htargets
      simp only [stmtEvents, stmtPassages, passagesEvents_append, exprsEvents_eq place values,
        htargets]
  | .call f args, next => by
      simp only [stmtEvents, stmtPassages, passagesEvents_append, exprEvents_eq place f,
        exprsEvents_eq place args]
  | .scope body, next => by
      simp only [stmtEvents, stmtPassages, passagesEvents_block, stmtsEvents_eq (place ++ [next]) body]
  | .branch clauses none, next => clausesEvents_eq place clauses next
  | .branch clauses (some body), next => by
      simp only [stmtEvents, stmtPassages, passagesEvents_append, passagesEvents_block,
        clausesEvents_eq place clauses, stmtsEvents_eq _ body]
  | .whileLoop cond body, next => by
      simp only [stmtEvents, stmtPassages, passagesEvents_append, passagesEvents_block,
        exprEvents_eq place cond, stmtsEvents_eq _ body]
  | .repeatLoop body cond, next => by
      simp only [stmtEvents, stmtPassages, passagesEvents_append, passagesEvents_block,
        exprEvents_eq _ cond, stmtsEvents_eq _ body]
  | .numericFor var start limit none body, next => by
      simp only [stmtEvents, stmtPassages, passagesEvents_append, passagesEvents_block,
        passagesEvents_introductions, exprEvents_eq place start, exprEvents_eq place limit,
        stmtsEvents_eq _ body]
      rfl
  | .numericFor var start limit (some step) body, next => by
      simp only [stmtEvents, stmtPassages, passagesEvents_append, passagesEvents_block,
        passagesEvents_introductions, exprEvents_eq place start, exprEvents_eq place limit,
        exprEvents_eq place step, stmtsEvents_eq _ body]
      rfl
  | .genericFor names exprs body, next => by
      simp only [stmtEvents, stmtPassages, passagesEvents_append, passagesEvents_block,
        passagesEvents_introductions, exprsEvents_eq place exprs, stmtsEvents_eq _ body,
        List.append_assoc]
  | .ret values, next => exprsEvents_eq place values next
  | .brk, _ => rfl

theorem stmtsEvents_eq (place : Place) : (b : List Stmt) → (next : Nat) →
    stmtsEvents place b next = passagesEvents place (stmtsPassages b) next
  | [], _ => rfl
  | s :: b, next => by
      simp only [stmtsEvents, stmtsPassages, passagesEvents_append, stmtEvents_eq place s,
        stmtsEvents_eq place b]

theorem clausesEvents_eq (place : Place) : (cs : List Clause) → (next : Nat) →
    clausesEvents place cs next = passagesEvents place (clausesPassages cs) next
  | [], _ => rfl
  | .mk cond body :: cs, next => by
      simp only [clausesEvents, clausesPassages, passagesEvents_append, passagesEvents_block,
        exprEvents_eq place cond, stmtsEvents_eq _ body, clausesEvents_eq place cs]

end

/-- The events of a block are those of its passages. -/
theorem events_eq (b : Block) : events b = (passagesEvents [0] (stmtsPassages b) 1).1 := by
  rw [events, stmtsEvents_eq]

example :
    (Block.mentions [.repeatLoop [.declare 1 ["x"] [.name "a"]] (.name "x"),
        .scope [.assign 2 [.name "x"] [.name "x"]]]).map (fun m => (m.name, m.block))
      = [("a", [0]), ("x", [0]), ("x", [0]), ("x", [1]), ("x", [1])] := by rfl

end Usage

end Devirt
