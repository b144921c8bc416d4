import Devirt.Proofs.Containing
import Devirt.Proofs.FoldingRules
import Devirt.Proofs.Fuel

set_option autoImplicit false

/-! # Folding keeps values and calls

What an expression comes to depends on what names, calls, accesses, constructors and operators mean.  A
meaning (`Meaning`) says so by actions, each of which may look at the calls made so far, may make calls of
its own, and may raise an error in place of a value.  Evaluation (`Meaning.eval`) fixes the order: operands
from left to right, the right operand of `and` and `or` only if it is asked for, and every call noted down
before it is made.  A value may be a list of values, so that calls with several results are covered.

Under the laws that the rules rely on (`Meaning.Lawful`) each rule keeps the action of the node, hence one
replacement keeps the action of the tree, by induction over the tree, and so does a walk
(`outcome_run`). -/

namespace Devirt

open Walk

/-! ## Evaluation -/

/-- A call that was made. -/
structure Call (V : Type) where
  func : V
  args : List V

/-- Ends with something or with an error, after some calls. -/
abbrev Action (V α : Type) : Type := ExceptT V (StateM (List (Call V))) α

/-- What the parts of an expression mean.  The operators `and` and `or` only ask for the truth of a
value. -/
structure Meaning (V : Type) where
  nil : V
  bool : Bool → V
  number : Double → V
  string : String → V
  vararg : Action V V
  name : String → Action V V
  member : V → String → Action V V
  index : V → V → Action V V
  call : V → List V → Action V V
  /-- A constructor, of entries with and without a key. -/
  table : List (Option V × V) → Action V V
  unary : UnaryOp → V → Action V V
  binary : BinaryOp → V → V → Action V V
  truth : V → Bool
  function : List String → Bool → Block → Action V V

namespace Meaning

variable {V : Type} (m : Meaning V)

/-- Notes a call down and makes it. -/
def perform (f : V) (args : List V) : Action V V := do
  modify (· ++ [⟨f, args⟩])
  m.call f args

/-- An operator applied to a value and to an operand that is yet to be evaluated. -/
def operate (op : BinaryOp) (x : V) (right : Action V V) : Action V V :=
  match op with
  | .and => if m.truth x then right else pure x
  | .or => if m.truth x then pure x else right
  | op => do m.binary op x (← right)

mutual

def eval : Expr → Action V V
  | .nil => pure m.nil
  | .bool b => pure (m.bool b)
  | .number x => pure (m.number x)
  | .string s => pure (m.string s)
  | .vararg => m.vararg
  | .name n => m.name n
  | .binary op l r => do m.operate op (← eval l) (eval r)
  | .unary op e => do m.unary op (← eval e)
  | .member o f => do m.member (← eval o) f
  | .index t k => do m.index (← eval t) (← eval k)
  | .call f args => do m.perform (← eval f) (← evalAll args)
  | .table entries => do m.table (← evalEntries entries)
  | .function params variadic body => m.function params variadic body

def evalAll : List Expr → Action V (List V)
  | [] => pure []
  | e :: es => do return (← eval e) :: (← evalAll es)

def evalEntries : List Entry → Action V (List (Option V × V))
  | [] => pure []
  | .positional v :: es => do return (none, ← eval v) :: (← evalEntries es)
  | .keyed k v :: es => do return (some (← eval k), ← eval v) :: (← evalEntries es)

end

/-- How the evaluation of an expression ends, and all calls made then, if `made` were made before it. -/
def outcome (e : Expr) (made : List (Call V)) : Except V V × List (Call V) := (m.eval e).run made

/-- A value that is written as a literal, other than `nil`. -/
inductive IsLiteral : V → Prop where
  | bool (b : Bool) : IsLiteral (m.bool b)
  | number (x : Double) : IsLiteral (m.number x)
  | string (s : String) : IsLiteral (m.string s)

/-- What the rules rely on. -/
structure Lawful : Prop where
  gt : ∀ x y, m.binary .gt x y = m.binary .lt y x
  ge : ∀ x y, m.binary .ge x y = m.binary .le y x
  eq : ∀ x y, m.binary .eq x y = m.binary .eq y x
  ne : ∀ x y, m.binary .ne x y = m.binary .ne y x
  neg : ∀ x, m.unary .neg (m.number x) = pure (m.number (-x))
  length : ∀ vs : List V, (∀ v ∈ vs, m.IsLiteral v) →
    m.table (vs.map fun v => (none, v)) >>= m.unary .len = pure (m.number (Double.ofNat vs.length))

/-! ## The rules -/

variable {m}

theorem operate_of_converse {op op' : BinaryOp} (h : op.converse = some op') (x : V)
    (right : Action V V) : m.operate op x right = right >>= m.binary op x := by
  cases op <;> first | contradiction | rfl

/-- Traded operands compare alike. -/
theorem Lawful.converse (hm : m.Lawful) {op op' : BinaryOp} (h : op.converse = some op') (x y : V) :
    m.binary op' y x = m.binary op x y := by
  cases op <;> cases h
  · exact hm.eq y x
  · exact hm.ne y x
  · exact hm.gt y x
  · exact (hm.gt x y).symm
  · exact hm.ge y x
  · exact (hm.ge x y).symm

theorem eval_of_isLiteral {e : Expr} (hlit : e.isLiteral = true) (hnil : e ≠ .nil) :
    ∃ v, m.eval e = pure v ∧ m.IsLiteral v := by
  cases e with
  | nil => contradiction
  | bool b => exact ⟨m.bool b, by rw [eval], .bool b⟩
  | number x => exact ⟨m.number x, by rw [eval], .number x⟩
  | string s => exact ⟨m.string s, by rw [eval], .string s⟩
  | _ => contradiction

/-- The entries of an array are literals, and evaluating them makes no call. -/
theorem evalEntries_of_isArray {entries : List Entry} (h : Folding.IsArray entries) :
    ∃ vs : List V, m.evalEntries entries = pure (vs.map fun v => (none, v)) ∧
      vs.length = entries.length ∧ ∀ v ∈ vs, m.IsLiteral v := by
  induction entries with
  | nil => exact ⟨[], by rw [evalEntries]; rfl, rfl, by simp⟩
  | cons entry entries ih =>
      obtain ⟨⟨e, rfl, hlit, hnil⟩, htail⟩ := List.forall_mem_cons.mp h
      obtain ⟨v, hv, hvlit⟩ := eval_of_isLiteral (m := m) hlit hnil
      obtain ⟨vs, hvs, hlength, hvslit⟩ := ih htail
      refine ⟨v :: vs, ?_, by simp [hlength], List.forall_mem_cons.mpr ⟨hvlit, hvslit⟩⟩
      rw [evalEntries, hv, hvs]
      simp

/-- Each rule keeps the action of the node. -/
theorem Lawful.eval_foldsTo (hm : m.Lawful) {e e' : Expr} (h : Folding.FoldsTo e e') :
    m.eval e' = m.eval e := by
  cases h with
  | negation x =>
      calc m.eval (.number (-x)) = pure (m.number (-x)) := by rw [eval]
        _ = m.unary .neg (m.number x) := (hm.neg x).symm
        _ = m.eval (.unary .neg (.number x)) := by simp [eval]
  | @length entries hall =>
      obtain ⟨vs, hvs, hlength, hlit⟩ := evalEntries_of_isArray (m := m) hall
      calc m.eval (.number (Double.ofNat entries.length))
          = pure (m.number (Double.ofNat vs.length)) := by rw [eval, hlength]
        _ = m.table (vs.map fun v => (none, v)) >>= m.unary .len := (hm.length vs hlit).symm
        _ = m.eval (.unary .len (.table entries)) := by simp [eval, hvs]
  | @comparison op op' x r hop hr =>
      have hop' : op'.converse = some op := by
        cases op <;> cases hop <;> rfl
      calc m.eval (.binary op' r (.number x))
          = m.eval r >>= fun y => m.binary op' y (m.number x) := by
            simp [eval, operate_of_converse hop']
        _ = m.eval r >>= m.binary op (m.number x) := by simp only [hm.converse hop]
        _ = m.eval (.binary op (.number x) r) := by simp [eval, operate_of_converse hop]

end Meaning

/-! ## Replacements -/

/-- The replacements of a pass that keeps blocks flat nest blocks no deeper than the tree did. -/
theorem Pass.Flat.blocks_step {p : Pass} (hp : p.Flat) (t : Slot) :
    ∀ t', SlotStep p t t' → t'.blocks ≤ t.blocks := by
  induction t using Slot.induction with
  | expr e ih =>
      rintro t' ⟨hstep⟩
      rcases hstep.cases_slots with hhook | ⟨-, hslots⟩
      · exact hp.onExpr _ _ hhook
      · refine (exprBlocks_le _).mpr (hslots.forall_mem (fun t ht t' h hle => ?_)
          ((exprBlocks_le e).mp le_rfl))
        exact (ih t ht t' h).trans hle
  | block b ih =>
      rintro t' (_ | ⟨hstep⟩)
      refine Nat.add_le_add_right ?_ 1
      cases hstep with
      | hook hhook => exact hp.block _ _ hhook
      | items hitems =>
          refine (stmtsBlocks_le _).mpr (hitems.forall_mem (fun s hs s' hstmt hle => ?_)
            ((stmtsBlocks_le b).mp le_rfl))
          rcases hstmt.cases_slots with hhook | ⟨-, hslots⟩
          · exact (hp.onStmt _ _ hhook).trans hle
          · refine (stmtBlocks_le _).mpr (hslots.forall_mem (fun t ht t' h hle => ?_)
              ((stmtBlocks_le s).mp hle))
            exact (ih s hs t ht t' h).trans hle

namespace Meaning

variable {V : Type} {m : Meaning V}

-- Only the answer of the hook needs the laws.  A replacement further down leaves the node with an operand of
-- the same action.
mutual

/-- Replacing a node of an expression keeps the action of the expression. -/
theorem Lawful.eval_step (hm : m.Lawful) : (e : Expr) → ∀ {e'}, exprBlocks e = 0 →
    ExprStep Folding.pass e e' → m.eval e' = m.eval e
  | .nil, _, _, h | .bool _, _, _, h | .number _, _, _, h | .string _, _, _, h | .vararg, _, _, h
  | .name _, _, _, h => by
      cases h with
      | hook h => exact hm.eval_foldsTo (Folding.foldsTo_of_onExpr h)
  | .binary op l r, _, he, h => by
      simp only [exprBlocks, Nat.max_eq_zero_iff] at he
      cases h with
      | hook h => exact hm.eval_foldsTo (Folding.foldsTo_of_onExpr h)
      | binaryLeft h => rw [eval, eval, hm.eval_step l he.1 h]
      | binaryRight h => rw [eval, eval, hm.eval_step r he.2 h]
  | .unary op e, _, he, h => by
      cases h with
      | hook h => exact hm.eval_foldsTo (Folding.foldsTo_of_onExpr h)
      | unary h => rw [eval, eval, hm.eval_step e he h]
  | .member o f, _, he, h => by
      cases h with
      | hook h => exact hm.eval_foldsTo (Folding.foldsTo_of_onExpr h)
      | member h => rw [eval, eval, hm.eval_step o he h]
  | .index t k, _, he, h => by
      simp only [exprBlocks, Nat.max_eq_zero_iff] at he
      cases h with
      | hook h => exact hm.eval_foldsTo (Folding.foldsTo_of_onExpr h)
      | indexTable h => rw [eval, eval, hm.eval_step t he.1 h]
      | indexKey h => rw [eval, eval, hm.eval_step k he.2 h]
  | .call f args, _, he, h => by
      simp only [exprBlocks, Nat.max_eq_zero_iff] at he
      cases h with
      | hook h => exact hm.eval_foldsTo (Folding.foldsTo_of_onExpr h)
      | callFunc h => rw [eval, eval, hm.eval_step f he.1 h]
      | callArgs h => rw [eval, eval, hm.evalAll_step args he.2 h]
  | .table entries, _, he, h => by
      cases h with
      | hook h => exact hm.eval_foldsTo (Folding.foldsTo_of_onExpr h)
      | table h => rw [eval, eval, hm.evalEntries_step entries he h]
  | .function _ _ _, _, he, _ => by contradiction

theorem Lawful.evalAll_step (hm : m.Lawful) : (es : List Expr) → ∀ {es'}, exprsBlocks es = 0 →
    ListStep (ExprStep Folding.pass) es es' → m.evalAll es' = m.evalAll es
  | [], _, _, h => by cases h
  | e :: es, _, hes, h => by
      simp only [exprsBlocks, Nat.max_eq_zero_iff] at hes
      cases h with
      | head h => rw [evalAll, evalAll, hm.eval_step e hes.1 h]
      | tail h => rw [evalAll, evalAll, hm.evalAll_step es hes.2 h]

theorem Lawful.evalEntries_step (hm : m.Lawful) : (es : List Entry) → ∀ {es'}, entriesBlocks es = 0 →
    ListStep (EntryStep Folding.pass) es es' → m.evalEntries es' = m.evalEntries es
  | [], _, _, h => by cases h
  | .positional v :: es, _, hes, h => by
      simp only [entriesBlocks, Nat.max_eq_zero_iff] at hes
      cases h with
      | head h =>
          cases h with
          | positional h => rw [evalEntries, evalEntries, hm.eval_step v hes.1 h]
      | tail h => rw [evalEntries, evalEntries, hm.evalEntries_step es hes.2 h]
  | .keyed k v :: es, _, hes, h => by
      simp only [entriesBlocks, Nat.max_eq_zero_iff] at hes
      cases h with
      | head h =>
          cases h with
          | key h => rw [evalEntries, evalEntries, hm.eval_step k hes.1.1 h]
          | value h => rw [evalEntries, evalEntries, hm.eval_step v hes.1.2 h]
      | tail h => rw [evalEntries, evalEntries, hm.evalEntries_step es hes.2 h]

end

variable (m) in
/-- A block that returns an expression without functions, the action of which is known. -/
def Returns (a : Action V V) (b : Block) : Prop :=
  ∃ e, b = [.ret [e]] ∧ exprBlocks e = 0 ∧ m.eval e = a

theorem Lawful.returns_step (hm : m.Lawful) {a : Action V V} {b b' : Block}
    (h : BlockStep Folding.pass b b') (hb : m.Returns a b) : m.Returns a b' := by
  obtain ⟨e, rfl, hblocks, rfl⟩ := hb
  cases h with
  | hook h => contradiction
  | items h =>
      cases h with
      | tail h => cases h
      | head h =>
          cases h with
          | hook h => contradiction
          | ret h =>
              cases h with
              | tail h => cases h
              | head h =>
                  have hle := Folding.flat_pass.blocks_step (.expr e) _ (.expr h)
                  exact ⟨_, rfl, Nat.le_zero.mp (hblocks ▸ hle), hm.eval_step e hblocks h⟩

/-- Whatever names, calls, accesses, constructors and operators mean, as long as the laws hold: folding
leaves of an expression without function bodies one that ends with the same value or error, after the same
calls in the same order, whatever calls were made before. -/
theorem outcome_run (m : Meaning V) (hm : m.Lawful) (e : Expr) (he : exprBlocks e = 0) :
    ∃ e', (Folding.stage.run [.ret [e]]).1 = [.ret [e']] ∧
      ∀ made, m.outcome e' made = m.outcome e made := by
  have hstart : m.Returns (m.eval e) [.ret [e]] := ⟨e, rfl, he, rfl⟩
  obtain ⟨e', hrun, -, heval⟩ := Folding.pass.walk_preserves (fun _ _ => hm.returns_step) hstart
  refine ⟨e', hrun, fun made => ?_⟩
  rw [outcome, heval, outcome]

/-! ## A meaning -/

/-- Values of a small language: its tables are arrays, of which only the length matters. -/
inductive Value where
  | nil
  | bool (b : Bool)
  | number (x : Double)
  | string (s : String)
  | array (length : Nat)
  | function (name : String)
  deriving DecidableEq

/-- The place of a number that is no NaN in the order of numbers. -/
def Value.rank (x : Double) : Int :=
  if x.isNegative then -((x.bits.toNat - Double.signWeight : Nat) : Int) else x.bits.toNat

def Value.equal : Value → Value → Bool
  | .number x, .number y => !x.isNaN && !y.isNaN && rank x == rank y
  | v, w => v == w

def Value.less : Value → Value → Action Value Value
  | .number x, .number y => pure (.bool (!x.isNaN && !y.isNaN && decide (rank x < rank y)))
  | _, _ => throw (.string "attempt to compare")

def Value.notMore : Value → Value → Action Value Value
  | .number x, .number y => pure (.bool (!x.isNaN && !y.isNaN && decide (rank x ≤ rank y)))
  | _, _ => throw (.string "attempt to compare")

/-- Names are those of functions.  A function returns how many calls were made, its own included. -/
def counting : Meaning Value where
  nil := .nil
  bool := .bool
  number := .number
  string := .string
  vararg := pure .nil
  name n := pure (.function n)
  member _ _ := throw (.string "attempt to index")
  index _ _ := throw (.string "attempt to index")
  call
    | .function _, _ => do return .number (Double.ofNat (← get).length)
    | _, _ => throw (.string "attempt to call")
  table entries := pure (.array (entries.countP fun p => p.1.isNone && p.2 != .nil))
  unary
    | .neg, .number x => pure (.number (-x))
    | .len, .array n => pure (.number (Double.ofNat n))
    | .not, v => pure (.bool (v == .nil || v == .bool false))
    | _, _ => throw (.string "attempt to operate")
  binary
    | .eq, v, w => pure (.bool (v.equal w))
    | .ne, v, w => pure (.bool !(v.equal w))
    | .lt, v, w => v.less w
    | .gt, v, w => w.less v
    | .le, v, w => v.notMore w
    | .ge, v, w => w.notMore v
    | _, _, _ => throw (.string "attempt to operate")
  truth v := v != .nil && v != .bool false
  function _ _ _ := pure (.function "")

theorem Value.equal_comm (v w : Value) : v.equal w = w.equal v := by
  cases v <;> cases w
  case number.number x y =>
    simp only [equal]
    rw [Bool.and_comm (!x.isNaN), Bool.beq_comm]
  all_goals exact Bool.beq_comm

theorem lawful_counting : counting.Lawful where
  gt _ _ := rfl
  ge _ _ := rfl
  eq v w := by
    show pure _ = pure _
    rw [v.equal_comm]
  ne v w := by
    show pure _ = pure _
    rw [v.equal_comm]
  neg _ := rfl
  length vs hvs := by
    have hcount : (vs.map fun v => ((none : Option Value), v)).countP
        (fun p => p.1.isNone && p.2 != .nil) = vs.length := by
      rw [List.countP_map, List.countP_eq_length]
      intro v hv
      cases hvs v hv <;> rfl
    show (pure (.number (Double.ofNat (List.countP _ _))) : Action Value Value) = _
    rw [hcount]
    rfl

/-- `-(-1) < f(g(), #{true, "a"})` becomes `f(g(), 2) > 1`. -/
theorem outcome_run_counting :
    let one : Expr := .unary .neg (.unary .neg (.number (Double.ofNat 1)))
    let two : Expr := .unary .len (.table [.positional (.bool true), .positional (.string "a")])
    let e : Expr := .binary .lt one (.call (.name "f") [.call (.name "g") [], two])
    counting.Lawful ∧ exprBlocks e = 0 ∧
      ∃ e', (Folding.stage.run [.ret [e]]).1 = [.ret [e']] ∧
        ∀ made, counting.outcome e' made = counting.outcome e made := by
  intro one two e
  have he : exprBlocks e = 0 := by rfl
  exact ⟨lawful_counting, he, outcome_run counting lawful_counting e he⟩

example : counting.outcome (.call (.name "f") [.call (.name "g") [], .unary .neg .nil]) []
    = (.error (.string "attempt to operate"), [⟨.function "g", []⟩]) := by rfl

example : counting.outcome (.binary .gt (.call (.name "f") [.call (.name "g") []])
      (.number (Double.ofNat 1))) []
    = (.ok (.bool true),
        [⟨.function "g", []⟩, ⟨.function "f", [.number (Double.ofNat 1)]⟩]) := by rfl

end Meaning

end Devirt
