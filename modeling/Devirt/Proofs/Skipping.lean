import Devirt.Listing
import Devirt.Proofs.RecoveredTree

set_option autoImplicit false

/-! # Instructions that skip

Whether `Test` and `TestSet` skip the next instruction depends on the truth of a register.  Three
pieces say how: the handler, the operands of the recovered instruction, and the note in the listing.

The handler and the recovered instruction agree (`exec_body`).  For `TestSet` the note agrees with
them as well.  The note of `Test` puts the skip under the condition that `TestSet` copies under, so it
says that the next instruction is skipped exactly when it is not (`skips_of_note`). -/

namespace Devirt

namespace Skipping

variable {V : Type}

/-! ## The machine

Registers hold values of any kind; all that matters of one is whether it counts as true. -/

structure Machine (V : Type) where
  pc : Int
  registers : Int → V

/-- The register that a recovered instruction tests. -/
def tested (j : Instruction) : Operand := if j.opcode = some .testSet then j.b else j.a

/-- In Lua 5.1, `Test A C` skips the next instruction unless the truth of A is that of `C ≠ 0`, and
so does `TestSet A B C` with the truth of B. -/
def skips (truth : V → Bool) (registers : Int → V) (j : Instruction) : Bool :=
  truth (registers (tested j).toInt) != decide (j.c ≠ 0)

/-- The effect of `Test` or `TestSet` when the jump that follows it leads to `target`: `TestSet`
copies B to A if it does not skip. -/
def step (truth : V → Bool) (j : Instruction) (target : Int) (m : Machine V) : Machine V :=
  if skips truth m.registers j then ⟨m.pc + 1, m.registers⟩
  else if j.opcode = some .testSet then
    ⟨target, Function.update m.registers j.a.toInt (m.registers j.b.toInt)⟩
  else ⟨target, m.registers⟩

/-! ## Handlers -/

/-- The kinds of handlers that skip.  With `negated` they skip when the register counts as false. -/
inductive Skipper where
  /-- `if stk[inst[OP_A]] then pc = pc + 1 else pc = inst[OP_B] end` -/
  | test (negated : Bool)
  /-- `local _1 = stk[inst[OP_C]]`, and then
  `if _1 then pc = pc + 1 else stk[inst[OP_A]] = _1; pc = inst[OP_B] end` -/
  | testSet (negated : Bool)
  deriving DecidableEq

namespace Skipper

def operand (key : String) : Expr := .index (.name "inst") (.name key)

def register (e : Expr) : Expr := .index (.name "stk") e

def condition (negated : Bool) (e : Expr) : Expr := if negated then .unary .not e else e

def advance : Stmt := .assign 0 [.name "pc"] [.binary .add (.name "pc") (.number (.ofNat 1))]

def jump : Stmt := .assign 0 [.name "pc"] [operand "OP_B"]

def fetch : Stmt := .declare 1 ["_1"] [register (operand "OP_C")]

def copy : Stmt := .assign 2 [register (operand "OP_A")] [.name "_1"]

/-- The decompiled source of the handler. -/
def body : Skipper → Block
  | test negated =>
    [.branch [.mk (condition negated (register (operand "OP_A"))) [advance]] (some [jump])]
  | testSet negated =>
    [fetch, .branch [.mk (condition negated (.name "_1")) [advance]] (some [copy, jump])]

def opcode : Skipper → Opcode
  | test _ => .test
  | testSet _ => .testSet

/-- The instruction that recovery makes of one with this handler. -/
def recovered (s : Skipper) (i : Instruction) : Instruction :=
  match s with
  | test n => { i with opcode := some .test, b := 0, c := if n then 1 else 0 }
  | testSet n => { i with opcode := some .testSet, b := i.c, c := if n then 1 else 0 }

@[simp] theorem opcode_recovered (s : Skipper) (i : Instruction) :
    (s.recovered i).opcode = some s.opcode := by
  cases s <;> rfl

end Skipper

/-! ## Running a handler

The fragment of the language that these handlers are written in. -/

/-- The machine together with the locals of the handler. -/
structure Frame (V : Type) where
  machine : Machine V
  locals : String → Option V

/-- The whole number that an expression stands for. -/
def number (i : Instruction) (f : Frame V) : Expr → Option Int
  | .name "pc" => some f.machine.pc
  | .number x => if x = .ofNat 1 then some 1 else none
  | .binary .add l r => do return (← number i f l) + (← number i f r)
  | .index (.name "inst") (.name "OP_A") => some i.a.toInt
  | .index (.name "inst") (.name "OP_B") => some i.b.toInt
  | .index (.name "inst") (.name "OP_C") => some i.c.toInt
  | _ => none

/-- The value that an expression reads from a register or a local. -/
def value (i : Instruction) (f : Frame V) : Expr → Option V
  | .index (.name "stk") key => (number i f key).map f.machine.registers
  | .name n => f.locals n
  | _ => none

/-- Whether a condition holds. -/
def holds (truth : V → Bool) (i : Instruction) (f : Frame V) : Expr → Option Bool
  | .unary .not e => (holds truth i f e).map Bool.not
  | e => (value i f e).map truth

mutual

def execStmt (truth : V → Bool) (i : Instruction) (f : Frame V) : Stmt → Option (Frame V)
  | .declare _ [n] [e] => do return { f with locals := Function.update f.locals n (← value i f e) }
  | .assign _ [.name "pc"] [e] => do return { f with machine.pc := ← number i f e }
  | .assign _ [.index (.name "stk") key] [e] => do
    let k ← number i f key
    let v ← value i f e
    return { f with machine.registers := Function.update f.machine.registers k v }
  | .branch clauses (some orElse) => do
    match ← execClauses truth i f clauses with
    | some g => return { g with locals := f.locals }
    | none =>
      let g ← execBlock truth i f orElse
      return { g with locals := f.locals }
  | _ => none

def execBlock (truth : V → Bool) (i : Instruction) (f : Frame V) : List Stmt → Option (Frame V)
  | [] => some f
  | s :: rest => do execBlock truth i (← execStmt truth i f s) rest

/-- Runs the first clause whose condition holds; `none` inside if there is none. -/
def execClauses (truth : V → Bool) (i : Instruction) (f : Frame V) :
    List Clause → Option (Option (Frame V))
  | [] => some none
  | .mk cond body :: rest => do
    if ← holds truth i f cond then return some (← execBlock truth i f body)
    else execClauses truth i f rest

end

/-- Runs a handler for the instruction `i`. -/
def exec (truth : V → Bool) (i : Instruction) (body : Block) (m : Machine V) : Option (Machine V) :=
  (execBlock truth i ⟨m, fun _ => none⟩ body).map Frame.machine

@[simp] theorem number_advance (i : Instruction) (f : Frame V) :
    number i f (.binary .add (.name "pc") (.number (.ofNat 1))) = some (f.machine.pc + 1) := by
  simp [number]

@[simp] theorem number_operand_a (i : Instruction) (f : Frame V) :
    number i f (Skipper.operand "OP_A") = some i.a.toInt := rfl

@[simp] theorem number_operand_b (i : Instruction) (f : Frame V) :
    number i f (Skipper.operand "OP_B") = some i.b.toInt := rfl

@[simp] theorem number_operand_c (i : Instruction) (f : Frame V) :
    number i f (Skipper.operand "OP_C") = some i.c.toInt := rfl

@[simp] theorem value_register (i : Instruction) (f : Frame V) (e : Expr) :
    value i f (Skipper.register e) = (number i f e).map f.machine.registers := rfl

@[simp] theorem value_local (i : Instruction) (f : Frame V) :
    value i f (.name "_1") = f.locals "_1" := rfl

section

variable (truth : V → Bool) (i : Instruction) (f : Frame V)

theorem execStmt_declare (id : NodeId) (n : String) (e : Expr) :
    execStmt truth i f (.declare id [n] [e])
      = (do return { f with locals := Function.update f.locals n (← value i f e) }) :=
  rfl

theorem execStmt_assign_pc (id : NodeId) (e : Expr) :
    execStmt truth i f (.assign id [.name "pc"] [e])
      = (do return { f with machine.pc := ← number i f e }) :=
  rfl

theorem execStmt_assign_register (id : NodeId) (key e : Expr) :
    execStmt truth i f (.assign id [Skipper.register key] [e])
      = (do
          let k ← number i f key
          let v ← value i f e
          return { f with machine.registers := Function.update f.machine.registers k v }) :=
  rfl

theorem execStmt_clauses (clauses : List Clause) (no : Block) :
    execStmt truth i f (.branch clauses (some no))
      = (do
          match ← execClauses truth i f clauses with
          | some g => return { g with locals := f.locals }
          | none =>
            let g ← execBlock truth i f no
            return { g with locals := f.locals }) :=
  rfl

theorem execBlock_nil : execBlock truth i f [] = some f := rfl

theorem execBlock_cons (s : Stmt) (rest : List Stmt) :
    execBlock truth i f (s :: rest)
      = (execStmt truth i f s).bind fun g => execBlock truth i g rest :=
  rfl

theorem execClauses_nil : execClauses truth i f [] = some none := rfl

theorem execClauses_cons (cond : Expr) (body : Block) (rest : List Clause) :
    execClauses truth i f (.mk cond body :: rest)
      = (do
          if ← holds truth i f cond then return some (← execBlock truth i f body)
          else execClauses truth i f rest) :=
  rfl

end

@[simp] theorem execBlock_advance (truth : V → Bool) (i : Instruction) (f : Frame V) :
    execBlock truth i f [Skipper.advance] = some { f with machine.pc := f.machine.pc + 1 } := by
  simp [execBlock_cons, execBlock_nil, execStmt_assign_pc, Skipper.advance]

@[simp] theorem execBlock_jump (truth : V → Bool) (i : Instruction) (f : Frame V) :
    execBlock truth i f [Skipper.jump] = some { f with machine.pc := i.b.toInt } := by
  simp [execBlock_cons, execBlock_nil, execStmt_assign_pc, Skipper.jump]

@[simp] theorem execStmt_fetch (truth : V → Bool) (i : Instruction) (f : Frame V) :
    execStmt truth i f Skipper.fetch
      = some { f with
          locals := Function.update f.locals "_1" (some (f.machine.registers i.c.toInt)) } := by
  simp [execStmt_declare, Skipper.fetch]

theorem execStmt_copy (truth : V → Bool) (i : Instruction) {f : Frame V} {v : V}
    (hv : f.locals "_1" = some v) :
    execStmt truth i f Skipper.copy
      = some { f with machine.registers := Function.update f.machine.registers i.a.toInt v } := by
  rw [Skipper.copy, execStmt_assign_register]
  simp [value, hv]

/-- A condition with or without `not`, on something that is no negation itself. -/
theorem holds_condition (truth : V → Bool) (i : Instruction) (f : Frame V) (negated : Bool)
    {e : Expr} (he : holds truth i f e = (value i f e).map truth) :
    holds truth i f (Skipper.condition negated e)
      = (value i f e).map fun v => truth v != negated := by
  cases negated
  · simp [Skipper.condition, he]
  · simp [Skipper.condition, holds, he, Function.comp_def]

/-- A conditional with one clause. -/
theorem execStmt_branch (truth : V → Bool) (i : Instruction) (f : Frame V) {cond : Expr}
    (yes no : Block) {c : Bool} (hc : holds truth i f cond = some c) :
    execStmt truth i f (.branch [.mk cond yes] (some no))
      = (execBlock truth i f (if c then yes else no)).map
          fun g => { g with locals := f.locals } := by
  cases c with
  | true =>
      cases h : execBlock truth i f yes <;> simp [execStmt_clauses, execClauses_cons, hc, h]
  | false =>
      cases h : execBlock truth i f no <;>
        simp [execStmt_clauses, execClauses_cons, execClauses_nil, hc, h]

/-! The recovered instruction skips when the condition of the handler holds. -/

@[simp] theorem skips_test (truth : V → Bool) (registers : Int → V) (n : Bool) (i : Instruction) :
    skips truth registers ((Skipper.test n).recovered i)
      = (truth (registers i.a.toInt) != n) := by
  cases n <;> simp [skips, tested, Skipper.recovered]

@[simp] theorem skips_testSet (truth : V → Bool) (registers : Int → V) (n : Bool)
    (i : Instruction) :
    skips truth registers ((Skipper.testSet n).recovered i)
      = (truth (registers i.c.toInt) != n) := by
  cases n <;> simp [skips, tested, Skipper.recovered]

/-- A handler that skips does what the recovered instruction does, the target being the operand B
that was stored. -/
theorem exec_body (truth : V → Bool) (s : Skipper) (i : Instruction) (m : Machine V) :
    exec truth i s.body m = some (step truth (s.recovered i) i.b.toInt m) := by
  cases s with
  | test negated =>
      have hcond : holds truth i ⟨m, fun _ => none⟩
          (Skipper.condition negated (Skipper.register (Skipper.operand "OP_A")))
          = some (truth (m.registers i.a.toInt) != negated) := by
        rw [holds_condition truth i _ negated rfl]
        simp
      simp only [exec, Skipper.body, execBlock_cons, execBlock_nil, execStmt_branch truth i _ _ _ hcond,
        step, skips_test]
      cases truth (m.registers i.a.toInt) != negated
      · simp [Skipper.recovered]
      · simp
  | testSet negated =>
      have hcond : holds truth i
          ⟨m, Function.update (fun _ => none) "_1" (some (m.registers i.c.toInt))⟩
          (Skipper.condition negated (.name "_1"))
          = some (truth (m.registers i.c.toInt) != negated) := by
        rw [holds_condition truth i _ negated rfl]
        simp
      simp only [exec, Skipper.body, execBlock_cons, execBlock_nil, execStmt_fetch, Option.bind_some,
        execStmt_branch truth i _ _ _ hcond, step, skips_testSet]
      cases truth (m.registers i.c.toInt) != negated
      · rw [if_neg (by simp), execBlock_cons,
          execStmt_copy truth i (v := m.registers i.c.toInt) (by simp)]
        simp [Skipper.recovered]
      · simp

/-- The index of an instruction has no part in a test. -/
theorem step_recovered_pc (truth : V → Bool) (s : Skipper) (i : Instruction) (n : UInt64)
    (target : Int) (m : Machine V) :
    step truth (s.recovered { i with pc := n }) target m = step truth (s.recovered i) target m := by
  cases s <;> rfl

/-! ## Recovery -/

/-- The shape of the catalog that the handler has. -/
def Skipper.shape : Skipper → Shape
  | s@(test n) => ⟨s.body.fingerprint, .test, .test (if n then 1 else 0)⟩
  | s@(testSet n) => ⟨s.body.fingerprint, .testSet, .testSet (if n then 1 else 0)⟩

theorem shapesFor_test :
    Catalog.moonSecV3.shapesFor .test
      = [false, true].map fun n => (Skipper.test n).shape := by
  decide +kernel

theorem shapesFor_testSet :
    Catalog.moonSecV3.shapesFor .testSet
      = [false, true].map fun n => (Skipper.testSet n).shape := by
  decide +kernel

/-- The handlers of `Test` and `TestSet` are the ones that skip. -/
theorem exists_skipper {fp : String} {i j : Instruction}
    (h : Catalog.moonSecV3.resolve fp i = some j)
    (hj : j.opcode = some .test ∨ j.opcode = some .testSet) :
    ∃ s : Skipper, fp = s.body.fingerprint ∧ j = s.recovered i := by
  rcases hj with hj | hj
  · obtain ⟨sh, hmem, rfl, rfl⟩ := Catalog.exists_shape h hj
    rw [shapesFor_test] at hmem
    obtain ⟨n, -, rfl⟩ := List.mem_map.mp hmem
    exact ⟨.test n, rfl, rfl⟩
  · obtain ⟨sh, hmem, rfl, rfl⟩ := Catalog.exists_shape h hj
    rw [shapesFor_testSet] at hmem
    obtain ⟨n, -, rfl⟩ := List.mem_map.mp hmem
    exact ⟨.testSet n, rfl, rfl⟩

/-- The handlers that skip are in the catalog. -/
theorem resolve_body (s : Skipper) (i : Instruction) :
    Catalog.moonSecV3.resolve s.body.fingerprint i = some (s.recovered i) := by
  have hlookup : ∀ n, Catalog.moonSecV3.lookup (Skipper.test n).body.fingerprint
        = some (Skipper.test n).shape ∧
      Catalog.moonSecV3.lookup (Skipper.testSet n).body.fingerprint
        = some (Skipper.testSet n).shape := by decide +kernel
  cases s with
  | test n => rw [Catalog.resolve, (hlookup n).1]; rfl
  | testSet n => rw [Catalog.resolve, (hlookup n).2]; rfl

/-! ## Notes -/

/-- The condition of a note: a register, or its negation. -/
structure Condition where
  negated : Bool
  register : Operand

namespace Condition

def text (c : Condition) : String :=
  (if c.negated then "not " else "") ++ Listing.reg c.register

def holds (truth : V → Bool) (registers : Int → V) (c : Condition) : Bool :=
  truth (registers c.register.toInt) != c.negated

end Condition

/-- A note that says when the next instruction is skipped. -/
inductive SkipNote where
  /-- Skips if the condition holds. -/
  | ifHolds (c : Condition)
  /-- Copies a register if the condition holds, else skips. -/
  | unlessHolds (c : Condition) (target source : Operand)

namespace SkipNote

def text : SkipNote → String
  | ifHolds c => "if " ++ c.text ++ " then PC += 1"
  | unlessHolds c target source =>
    "if " ++ c.text ++ " then " ++ Listing.reg target ++ " = " ++ Listing.reg source
      ++ " else PC += 1"

/-- Whether the note says that the next instruction is skipped. -/
def skips (truth : V → Bool) (registers : Int → V) : SkipNote → Bool
  | ifHolds c => c.holds truth registers
  | unlessHolds c _ _ => !c.holds truth registers

/-- The registers after what the note says. -/
def after (truth : V → Bool) (registers : Int → V) : SkipNote → Int → V
  | ifHolds _ => registers
  | unlessHolds c target source =>
    if c.holds truth registers then
      Function.update registers target.toInt (registers source.toInt)
    else registers

end SkipNote

/-! ### Notes are read in one way only -/

theorem notMem_digits {c : Char} (hc : c.isDigit = false) (n : Nat) : c ∉ Nat.toDigits 10 n := by
  intro h
  rw [Nat.isDigit_of_mem_toDigits (by decide) (by decide) h] at hc
  contradiction

theorem natRepr_injective {m n : Nat} (h : m.repr = n.repr) : m = n := by
  have hdigits : Nat.toDigits 10 m = Nat.toDigits 10 n := by
    rw [← Nat.toList_repr, h, Nat.toList_repr]
  rw [← Nat.ofDigitChars_ten_toDigits (n := m), hdigits, Nat.ofDigitChars_ten_toDigits]

theorem repr_injective {i j : Int} (h : i.repr = j.repr) : i = j := by
  have hminus : ∀ m n : Nat, m.repr ≠ "-" ++ n.repr := by
    intro m n hmn
    refine notMem_digits (c := '-') rfl m ?_
    rw [← Nat.toList_repr, hmn, String.toList_append]
    exact List.mem_append_left _ (List.mem_singleton_self _)
  rw [Int.repr_eq_if, Int.repr_eq_if] at h
  split_ifs at h
  · have htoNat := natRepr_injective h
    omega
  · exact absurd h (hminus _ _)
  · exact absurd h.symm (hminus _ _)
  · have htoNat := natRepr_injective ((String.append_right_inj "-").mp h)
    omega

theorem reg_injective {r r' : Operand} (h : Listing.reg r = Listing.reg r') : r = r' := by
  have hint : r.toInt.repr = r'.toInt.repr := (String.append_right_inj "R").mp h
  exact Int32.toInt_inj.mp (repr_injective hint)

/-- A register is written without a blank. -/
theorem blank_notMem_reg (r : Operand) : ' ' ∉ (Listing.reg r).toList := by
  have hint : ' ' ∉ r.toInt.repr.toList := by
    rw [Int.repr_eq_if]
    split_ifs <;> simp [notMem_digits]
  simpa [Listing.reg, Listing.int] using hint

/-- What stands before the first blank is determined. -/
theorem eq_of_append_blank {u v s t : List Char} (hu : ' ' ∉ u) (hv : ' ' ∉ v)
    (h : u ++ ' ' :: s = v ++ ' ' :: t) : u = v ∧ s = t := by
  induction u generalizing v with
  | nil =>
      cases v with
      | nil => simpa using h
      | cons d v =>
          obtain ⟨rfl, -⟩ : ' ' = d ∧ s = v ++ ' ' :: t := by simpa using h
          simp at hv
  | cons c u ih =>
      cases v with
      | nil =>
          obtain ⟨rfl, -⟩ : c = ' ' ∧ u ++ ' ' :: s = t := by simpa using h
          simp at hu
      | cons d v =>
          obtain ⟨rfl, htail⟩ : c = d ∧ u ++ ' ' :: s = v ++ ' ' :: t := by simpa using h
          obtain ⟨rfl, rfl⟩ := ih (fun hc => hu (.tail _ hc)) (fun hc => hv (.tail _ hc)) htail
          exact ⟨rfl, rfl⟩

/-- A register and what follows it are read off a text. -/
theorem eq_of_reg_append {r r' : Operand} {s t : String}
    (h : Listing.reg r ++ (" " ++ s) = Listing.reg r' ++ (" " ++ t)) : r = r' ∧ s = t := by
  have hlist := congrArg String.toList h
  simp only [String.toList_append] at hlist
  obtain ⟨hr, hs⟩ := eq_of_append_blank (blank_notMem_reg r) (blank_notMem_reg r') hlist
  exact ⟨reg_injective (String.toList_inj.mp hr), String.toList_inj.mp hs⟩

/-- A condition and what follows it are read off a text. -/
theorem eq_of_condition_append {c c' : Condition} {s t : String}
    (h : c.text ++ (" " ++ s) = c'.text ++ (" " ++ t)) : c = c' ∧ s = t := by
  obtain ⟨n, r⟩ := c
  obtain ⟨n', r'⟩ := c'
  obtain rfl : n = n' := by
    -- a register begins with R, a negation with n
    by_contra hne
    have hhead := congrArg (fun x => x.toList.head?) h
    cases n <;> cases n' <;> simp [Condition.text, Listing.reg] at hne hhead
  simp only [Condition.text, String.append_assoc, String.append_right_inj] at h
  obtain ⟨rfl, rfl⟩ := eq_of_reg_append h
  exact ⟨rfl, rfl⟩

namespace SkipNote

def condition : SkipNote → Condition
  | ifHolds c => c
  | unlessHolds c _ _ => c

/-- What follows the condition. -/
def outcome : SkipNote → String
  | ifHolds _ => "then PC += 1"
  | unlessHolds _ target source =>
    "then " ++ (Listing.reg target ++ (" " ++
      ("= " ++ (Listing.reg source ++ (" " ++ "else PC += 1")))))

theorem text_eq (n : SkipNote) : n.text = "if " ++ (n.condition.text ++ (" " ++ n.outcome)) := by
  cases n <;> simp [← String.toList_inj, text, condition, outcome]

/-- The register of a copy is not taken for the skip. -/
theorem skip_ne_copy (r : Operand) (s : String) :
    "then PC += 1" ≠ "then " ++ (Listing.reg r ++ s) := by
  simp [← String.toList_inj, Listing.reg]

theorem text_injective : Function.Injective text := by
  intro n n' h
  rw [text_eq, text_eq, String.append_right_inj] at h
  obtain ⟨hcond, hout⟩ := eq_of_condition_append h
  cases n with
  | ifHolds c =>
      cases n' with
      | ifHolds c' =>
          obtain rfl : c = c' := hcond
          rfl
      | unlessHolds c' target source => exact absurd hout (skip_ne_copy _ _)
  | unlessHolds c target source =>
      cases n' with
      | ifHolds c' => exact absurd hout.symm (skip_ne_copy _ _)
      | unlessHolds c' target' source' =>
          obtain rfl : c = c' := hcond
          obtain ⟨rfl, hsource⟩ := eq_of_reg_append ((String.append_right_inj "then ").mp hout)
          obtain ⟨rfl, -⟩ := eq_of_reg_append ((String.append_right_inj "= ").mp hsource)
          rfl

end SkipNote

/-! ### The notes of `Test` and `TestSet` -/

/-- The note of the instruction that recovery makes of one with this handler.  For both opcodes its
condition is that the next instruction is *not* skipped. -/
def Skipper.note (i : Instruction) : Skipper → SkipNote
  | test n => .ifHolds ⟨!n, i.a⟩
  | testSet n => .unlessHolds ⟨!n, i.c⟩ i.a i.c

theorem note_recovered (p : Prototype) (s : Skipper) (i : Instruction) :
    Listing.note p (s.recovered i) = some (s.note i).text := by
  rcases s with n | n <;> cases n
  all_goals
    simp only [Listing.note, Listing.noteFor, Skipper.recovered, Skipper.note, SkipNote.text,
      Condition.text, Option.map_some, String.append_assoc]
    rfl

theorem skips_note (truth : V → Bool) (registers : Int → V) (s : Skipper) (i : Instruction) :
    (s.note i).skips truth registers
      = if s.opcode = .testSet then skips truth registers (s.recovered i)
        else !skips truth registers (s.recovered i) := by
  cases s <;> simp [Skipper.note, SkipNote.skips, Condition.holds, Skipper.opcode]

theorem after_note (truth : V → Bool) (s : Skipper) (i : Instruction) (target : Int)
    (m : Machine V) :
    (s.note i).after truth m.registers = (step truth (s.recovered i) target m).registers := by
  cases s with
  | test n =>
      have hcopy : ((Skipper.test n).recovered i).opcode ≠ some .testSet := by
        simp [Skipper.opcode]
      rw [step, if_neg hcopy]
      split_ifs <;> rfl
  | testSet n =>
      rw [step, skips_testSet]
      cases h : truth (m.registers i.c.toInt) != n <;>
        simp [Skipper.note, SkipNote.after, Condition.holds, Skipper.recovered, h]

/-- Every instruction that recovery makes a `Test` or a `TestSet` has one of the handlers that skip,
and the handler does what the recovered instruction does.  What the note says of the registers is
right as well.  When the next instruction is skipped, though, it says right for `TestSet` only; for
`Test` it says the opposite. -/
theorem skips_of_note {handlers : HandlerTable} {root p q : Prototype} {path : List Nat} {k : Nat}
    {i j : Instruction} (hp : root.descend? path = some p) (hi : p.instructions[k]? = some i)
    (hopen : i.opcode = none) (hq : (root.recover handlers).1.descend? path = some q)
    (hj : q.instructions[k]? = some j)
    (hop : j.opcode = some .test ∨ j.opcode = some .testSet) :
    ∃ s : Skipper, handlers.get? i.opNum = some s.body.fingerprint ∧
      (∀ (V : Type) (truth : V → Bool) (m : Machine V),
        exec truth i s.body m = some (step truth j i.b.toInt m)) ∧
      (∃ n : SkipNote, Listing.note q j = some n.text) ∧
      ∀ n : SkipNote, Listing.note q j = some n.text →
        ∀ (V : Type) (truth : V → Bool) (m : Machine V),
          n.after truth m.registers = (step truth j i.b.toInt m).registers ∧
          (j.opcode = some .testSet → n.skips truth m.registers = skips truth m.registers j) ∧
          (j.opcode = some .test → n.skips truth m.registers = !skips truth m.registers j) := by
  have hstep := Recovery.getElem?_recover _ _ hp hi hq hj
  obtain ⟨op, hop'⟩ : ∃ op, j.opcode = some op := by
    rcases hop with h | h <;> exact ⟨_, h⟩
  obtain ⟨fp, hfp, hres⟩ := Recovery.resolve_of_step _ _ hopen (hstep ▸ hop')
  rw [← hstep] at hres
  obtain ⟨s, rfl, rfl⟩ := exists_skipper hres hop
  refine ⟨s, hfp, ?_, ⟨_, note_recovered ..⟩, ?_⟩
  · intro V truth m
    rw [exec_body]
    exact congrArg some (step_recovered_pc ..).symm
  · intro n hn V truth m
    obtain rfl : n = s.note { i with pc := .ofNat k } := by
      apply SkipNote.text_injective
      simpa [note_recovered] using hn.symm
    refine ⟨after_note .., ?_, ?_⟩
    · intro h
      have hs : s.opcode = .testSet := by simpa using h
      rw [skips_note, if_pos hs]
    · intro h
      have hs : s.opcode = .test := by simpa using h
      rw [skips_note, if_neg (by simp [hs])]

/-- Tests the first register; the handler may jump to the sixth instruction. -/
def probe : Instruction := ⟨7, none, 0, 5, 0, 0, false⟩

def probeHandlers : HandlerTable := .insert .empty 7 (Skipper.test false).body.fingerprint

/-- A function with one instruction. -/
def single (i : Instruction) : Prototype := .mk ⟨"main", 0, 0, 0, 0⟩ [i] [] []

/-- The instruction of such a function becomes what its handler says. -/
theorem recover_single {handlers : HandlerTable} {i found : Instruction} {fp : String}
    (hlive : i.dead = false) (hopen : i.opcode = none) (hfp : handlers.get? i.opNum = some fp)
    (hres : Catalog.moonSecV3.resolve fp { i with pc := .ofNat 0 } = some found) :
    ((single i).recover handlers).1 = single found :=
  congrArg single (Recovery.step_of_resolve .moonSecV3 handlers (r := .start) hlive hopen hfp hres)

theorem recover_probe :
    ((single probe).recover probeHandlers).1 = single ((Skipper.test false).recovered probe) :=
  recover_single rfl rfl (by simp [probeHandlers, probe])
    (resolve_body (.test false) { probe with pc := .ofNat 0 })

theorem skips_of_note_probe :
    ((single probe).recover probeHandlers).1.instructions
        = [(Skipper.test false).recovered probe] ∧
      ∃ s : Skipper, probeHandlers.get? 7 = some s.body.fingerprint ∧
        (∀ m : Machine Bool,
          exec id probe s.body m = some (step id ((Skipper.test false).recovered probe) 5 m)) ∧
        ∃ n : SkipNote,
          Listing.note (single probe) ((Skipper.test false).recovered probe) = some n.text ∧
          ∀ registers : Int → Bool, n.skips id registers = !registers 0 := by
  have hroot : ((single probe).recover probeHandlers).1.descend? []
      = some (single ((Skipper.test false).recovered probe)) := congrArg some recover_probe
  obtain ⟨s, hs, hexec, ⟨n, hn⟩, hnote⟩ :=
    skips_of_note (rfl : (single probe).descend? [] = some (single probe))
      (rfl : (single probe).instructions[0]? = some probe) rfl hroot rfl (.inl rfl)
  refine ⟨congrArg Prototype.instructions recover_probe, s, hs, hexec Bool id, n, hn, ?_⟩
  intro registers
  have hskips := (hnote n hn Bool id ⟨0, registers⟩).2.2 rfl
  simpa [skips_test, probe] using hskips

/-- Notes do not in general say when the next instruction is skipped: that of a recovered `Test`
says that it is when the register counts as false, and it is when the register counts as true. -/
theorem skips_of_note_reversed :
    ¬ ∀ (handlers : HandlerTable) (root p q : Prototype) (path : List Nat) (k : Nat)
      (i j : Instruction), root.descend? path = some p → p.instructions[k]? = some i →
      i.opcode = none → (root.recover handlers).1.descend? path = some q →
      q.instructions[k]? = some j → (j.opcode = some .test ∨ j.opcode = some .testSet) →
      ∀ n : SkipNote, Listing.note q j = some n.text → ∀ registers : Int → Bool,
        n.skips id registers = skips id registers j := by
  intro h
  have hroot : ((single probe).recover probeHandlers).1.descend? []
      = some (single ((Skipper.test false).recovered probe)) := congrArg some recover_probe
  have hsame := h probeHandlers (single probe) _ _ [] 0 probe _ rfl rfl rfl hroot rfl (.inl rfl) _
    (note_recovered ..) fun _ => true
  simp [skips_note, Skipper.opcode] at hsame

end Skipping

end Devirt
