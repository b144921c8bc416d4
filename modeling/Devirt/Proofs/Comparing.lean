import Devirt.Proofs.Skipping

set_option autoImplicit false

/-! # Instructions that compare

`Eq`, `Lt` and `Le` compare two registers or constants, and skip the next instruction unless the result
is what their flag says.  As for the tests of one register (`Skipping`), the handler, the operands of
the recovered instruction and the note in the listing each say when.

The handler and the recovered instruction agree on operands that name something (`next_body`,
`slot_of_names`).  The note of an `Lt` or `Le` whose flag is set has the comparison mirrored where it
should be negated.  For values in a total order this makes a difference just when the two are equal
(`relation_of_note`). -/

namespace Devirt

namespace Comparing

open Skipping (Frame number single recover_single)
open Skipping.Skipper (operand register advance jump)

variable {V : Type}

/-! ## Values -/

/-- What registers and constants hold; constants are counted from zero. -/
structure Valuation (V : Type) where
  registers : Int → V
  constants : Int → V

/-- What a slot holds. -/
def Valuation.slot (v : Valuation V) (o : Operand) : V :=
  if Prototype.isConstantSlot o then v.constants (o.toInt - 256) else v.registers o.toInt

/-- What the operand of a handler holds: handlers count constants from one. -/
def Valuation.operand (v : Valuation V) (isConstant : Bool) (o : Operand) : V :=
  if isConstant then v.constants (o.toInt - 1) else v.registers o.toInt

/-- Whether an operand names a register, or a constant that has a slot. -/
def Names (isConstant : Bool) (o : Operand) : Prop :=
  if isConstant then 1 ≤ o.toInt ∧ o.toInt + 255 ≤ 0x7fffffff else o.toInt ≤ 255

instance (isConstant : Bool) (o : Operand) : Decidable (Names isConstant o) :=
  inferInstanceAs (Decidable (if isConstant then _ else _))

theorem slot_of_names (v : Valuation V) {isConstant : Bool} {o : Operand}
    (h : Names isConstant o) : v.slot (Rule.slot isConstant o) = v.operand isConstant o := by
  cases isConstant with
  | true =>
      obtain ⟨hlo, hhi⟩ : 1 ≤ o.toInt ∧ o.toInt + 255 ≤ 0x7fffffff := h
      have hslot : (Rule.constantSlot o).toInt = o.toInt + 255 :=
        Rule.toInt_constantSlot (by omega) hhi
      have hconst : Prototype.isConstantSlot (Rule.constantSlot o) = true := by
        simp only [Prototype.isConstantSlot, hslot, decide_eq_true_eq]
        omega
      have hindex : o.toInt + 255 - 256 = o.toInt - 1 := by omega
      simp [Valuation.slot, Valuation.operand, Rule.slot, hconst, hslot, hindex]
  | false =>
      have hle : o.toInt ≤ 255 := h
      have hreg : Prototype.isConstantSlot o = false := by
        simp only [Prototype.isConstantSlot, decide_eq_false_iff_not]
        omega
      simp [Valuation.slot, Valuation.operand, Rule.slot, hreg]

/-! ## Comparisons -/

/-- The truth of a comparison; other operators have none. -/
def compare? [LinearOrder V] (x y : V) : BinaryOp → Option Bool
  | .eq => some (decide (x = y))
  | .ne => some (decide (x ≠ y))
  | .lt => some (decide (x < y))
  | .gt => some (decide (x > y))
  | .le => some (decide (x ≤ y))
  | .ge => some (decide (x ≥ y))
  | _ => none

/-- What the three opcodes compare for. -/
inductive Compared where
  | eq | lt | le
  deriving DecidableEq

namespace Compared

def opcode : Compared → Opcode
  | eq => .eq
  | lt => .lt
  | le => .le

def holds [LinearOrder V] (x y : V) : Compared → Bool
  | eq => decide (x = y)
  | lt => decide (x < y)
  | le => decide (x ≤ y)

end Compared

/-- In Lua 5.1, `Eq A B C`, `Lt A B C` and `Le A B C` skip the next instruction unless the truth of the
comparison of B and C is that of `A ≠ 0`. -/
def skips [LinearOrder V] (v : Valuation V) (j : Instruction) : Bool :=
  let result : Bool :=
    match j.opcode with
    | some .eq => decide (v.slot j.b = v.slot j.c)
    | some .lt => decide (v.slot j.b < v.slot j.c)
    | some .le => decide (v.slot j.b ≤ v.slot j.c)
    | _ => false
  result != decide (j.a ≠ 0)

/-! ## Handlers -/

/-- The kinds of handlers that compare the operands A and C and then go to the next instruction, or to
the target in B. -/
inductive Comparer where
  /-- A conditional.  With the flag set it goes on if the comparison fails: for `eq` the operator is
  `~=`, for the others the two ways are exchanged. -/
  | branch (what : Compared) (flag leftConst rightConst : Bool)
  /-- `pc = stk[inst[OP_A]] == stk[inst[OP_C]] and inst[OP_B] or pc + 1` -/
  | select
  deriving DecidableEq

namespace Comparer

def what : Comparer → Compared
  | branch w _ _ _ => w
  | select => .eq

def flag : Comparer → Bool
  | branch _ f _ _ => f
  | select => true

def leftConst : Comparer → Bool
  | branch _ _ l _ => l
  | select => false

def rightConst : Comparer → Bool
  | branch _ _ _ r => r
  | select => false

/-- A constant stands in the operand itself. -/
def read (isConstant : Bool) (key : String) : Expr :=
  if isConstant then operand key else register (operand key)

def conditional (cond : Expr) (yes no : Stmt) : Block := [.branch [.mk cond [yes]] (some [no])]

/-- The decompiled source of the handler. -/
def body : Comparer → Block
  | branch w f l r =>
    let x := read l "OP_A"
    let y := read r "OP_C"
    match w, f with
    | .eq, false => conditional (.binary .eq x y) advance jump
    | .eq, true => conditional (.binary .ne x y) advance jump
    | .lt, false => conditional (.binary .lt x y) advance jump
    | .lt, true => conditional (.binary .lt x y) jump advance
    | .le, false => conditional (.binary .le x y) advance jump
    | .le, true => conditional (.binary .le x y) jump advance
  | select =>
    [.assign 0 [.name "pc"]
      [.binary .or
        (.binary .and (.binary .eq (read false "OP_A") (read false "OP_C")) (operand "OP_B"))
        (.binary .add (.name "pc") (.number (.ofNat 1)))]]

/-- The instruction that recovery makes of one with this handler. -/
def recovered (s : Comparer) (i : Instruction) : Instruction :=
  { i with
    opcode := some s.what.opcode
    a := if s.flag then 1 else 0
    b := Rule.slot s.leftConst i.a
    c := Rule.slot s.rightConst i.c }

/-- Whether the operands of an instruction are what the handler takes them for. -/
def Fits (s : Comparer) (i : Instruction) : Prop :=
  Names s.leftConst i.a ∧ Names s.rightConst i.c

def all : List Comparer :=
  select ::
    [Compared.eq, .lt, .le].flatMap fun w =>
      [false, true].flatMap fun f =>
        [false, true].flatMap fun l => [false, true].map fun r => branch w f l r

theorem mem_all (s : Comparer) : s ∈ all := by
  rcases s with ⟨w, f, l, r⟩ | _
  · cases w <;> cases f <;> cases l <;> cases r <;> decide
  · decide

end Comparer

theorem skips_recovered [LinearOrder V] (v : Valuation V) (s : Comparer) (i : Instruction) :
    skips v (s.recovered i)
      = (s.what.holds (v.slot (Rule.slot s.leftConst i.a)) (v.slot (Rule.slot s.rightConst i.c))
          != s.flag) := by
  have hflag : decide ((if s.flag then (1 : Operand) else 0) ≠ 0) = s.flag := by
    cases s.flag <;> rfl
  cases h : s.what <;>
    simp only [skips, Comparer.recovered, Compared.opcode, Compared.holds, h, hflag]

/-! ## Running a handler

The fragment of the language that these handlers are written in.  Numbers count as true, so that
`cond and m or n` is `m` if the condition holds, and else `n`. -/

section
variable (v : Valuation V) (i : Instruction) (pc : Int)

def frame : Frame V := ⟨⟨pc, v.registers⟩, fun _ => none⟩

/-- The register or constant that is compared. -/
def value? : Expr → Option V
  | .index (.name "stk") key => (number i (frame v pc) key).map v.registers
  | e => (number i (frame v pc) e).map fun n => v.constants (n - 1)

theorem value_read (isConstant : Bool) {key : String} {o : Operand}
    (h : number i (frame v pc) (operand key) = some o.toInt) :
    value? v i pc (Comparer.read isConstant key) = some (v.operand isConstant o) := by
  cases isConstant with
  | true => exact congrArg (Option.map fun n => v.constants (n - 1)) h
  | false => exact congrArg (Option.map v.registers) h

variable [LinearOrder V]

def holds? : Expr → Option Bool
  | .binary op l r => do compare? (← value? v i pc l) (← value? v i pc r) op
  | _ => none

def target? : Expr → Option Int
  | .binary .or (.binary .and cond m) n => do
    if ← holds? v i pc cond then number i (frame v pc) m else number i (frame v pc) n
  | e => number i (frame v pc) e

def assigned? : Block → Option Int
  | [.assign _ [.name "pc"] [e]] => target? v i pc e
  | _ => none

/-- The index of the instruction that a handler goes to. -/
def next? : Block → Option Int
  | [.branch [.mk cond yes] (some no)] => do
    if ← holds? v i pc cond then assigned? v i pc yes else assigned? v i pc no
  | body => assigned? v i pc body

/-- The operands A and C are compared. -/
theorem holds_operands (op : BinaryOp) (l r : Bool) :
    holds? v i pc (.binary op (Comparer.read l "OP_A") (Comparer.read r "OP_C"))
      = compare? (v.operand l i.a) (v.operand r i.c) op := by
  have hx : value? v i pc (Comparer.read l "OP_A") = some (v.operand l i.a) :=
    value_read v i pc l rfl
  have hy : value? v i pc (Comparer.read r "OP_C") = some (v.operand r i.c) :=
    value_read v i pc r rfl
  simp [holds?, hx, hy]

theorem assigned_advance : assigned? v i pc [advance] = some (pc + 1) := by
  simp [assigned?, advance, target?, frame]

theorem assigned_jump : assigned? v i pc [jump] = some i.b.toInt := rfl

/-- On to the next instruction, or to the target. -/
def landing (on : Bool) : Int := if on then pc + 1 else i.b.toInt

section
variable {op : BinaryOp} {l r on : Bool}

theorem next_conditional (yes no : Stmt) {c : Bool}
    (hc : compare? (v.operand l i.a) (v.operand r i.c) op = some c) :
    next? v i pc (Comparer.conditional
        (.binary op (Comparer.read l "OP_A") (Comparer.read r "OP_C")) yes no)
      = if c then assigned? v i pc [yes] else assigned? v i pc [no] := by
  rw [← holds_operands v i pc] at hc
  simp [next?, Comparer.conditional, hc]

theorem next_advance_jump
    (hc : compare? (v.operand l i.a) (v.operand r i.c) op = some on) :
    next? v i pc (Comparer.conditional
        (.binary op (Comparer.read l "OP_A") (Comparer.read r "OP_C")) advance jump)
      = some (landing i pc on) := by
  rw [next_conditional v i pc _ _ hc, assigned_advance, assigned_jump]
  cases on <;> rfl

theorem next_jump_advance
    (hc : compare? (v.operand l i.a) (v.operand r i.c) op = some !on) :
    next? v i pc (Comparer.conditional
        (.binary op (Comparer.read l "OP_A") (Comparer.read r "OP_C")) jump advance)
      = some (landing i pc on) := by
  rw [next_conditional v i pc _ _ hc, assigned_advance, assigned_jump]
  cases on <;> rfl

end

theorem next_branch (what : Compared) (flag l r : Bool) :
    next? v i pc (Comparer.branch what flag l r).body
      = some (landing i pc (what.holds (v.operand l i.a) (v.operand r i.c) != flag)) := by
  cases what <;> cases flag
  case eq.false => exact next_advance_jump v i pc (by simp [compare?, Compared.holds])
  case eq.true => exact next_advance_jump v i pc (by simp [compare?, Compared.holds])
  case lt.false => exact next_advance_jump v i pc (by simp [compare?, Compared.holds])
  case lt.true => exact next_jump_advance v i pc (by simp [compare?, Compared.holds])
  case le.false => exact next_advance_jump v i pc (by simp [compare?, Compared.holds])
  case le.true => exact next_jump_advance v i pc (by simp [compare?, Compared.holds])

theorem next_select :
    next? v i pc Comparer.select.body
      = some (landing i pc (Compared.eq.holds (v.operand false i.a) (v.operand false i.c) != true)) := by
  have hc := holds_operands v i pc .eq false false
  by_cases h : v.operand false i.a = v.operand false i.c <;>
    simp [next?, assigned?, target?, Comparer.body, Compared.holds, compare?, frame, landing, h, hc]

/-- The handler goes to the next instruction unless the result of its comparison is the flag. -/
theorem next_body (s : Comparer) :
    next? v i pc s.body
      = some (landing i pc
          (s.what.holds (v.operand s.leftConst i.a) (v.operand s.rightConst i.c) != s.flag)) := by
  cases s with
  | branch what flag l r => exact next_branch v i pc what flag l r
  | select => exact next_select v i pc

end

/-! ## Recovery -/

/-- The shape of the catalog that the handler has. -/
def Comparer.shape (s : Comparer) : Shape :=
  ⟨s.body.fingerprint, s.what.opcode, .compare s.leftConst s.rightConst (if s.flag then 1 else 0)⟩

theorem shapesFor_compared (what : Compared) :
    ∀ sh ∈ Catalog.moonSecV3.shapesFor what.opcode, sh ∈ Comparer.all.map Comparer.shape := by
  cases what <;> decide +kernel

theorem lookup_body :
    ∀ s ∈ Comparer.all, Catalog.moonSecV3.lookup s.body.fingerprint = some s.shape := by
  decide +kernel

/-- The handlers of `Eq`, `Lt` and `Le` are the ones that compare. -/
theorem exists_comparer {fp : String} {i j : Instruction} {what : Compared}
    (h : Catalog.moonSecV3.resolve fp i = some j) (hj : j.opcode = some what.opcode) :
    ∃ s : Comparer, fp = s.body.fingerprint ∧ j = s.recovered i := by
  obtain ⟨sh, hsh, rfl, rfl⟩ := Catalog.exists_shape h hj
  obtain ⟨s, -, rfl⟩ := List.mem_map.mp (shapesFor_compared what sh hsh)
  exact ⟨s, rfl, rfl⟩

/-- The handlers that compare are in the catalog. -/
theorem resolve_body (s : Comparer) (i : Instruction) :
    Catalog.moonSecV3.resolve s.body.fingerprint i = some (s.recovered i) := by
  rw [Catalog.resolve, lookup_body s s.mem_all]
  rfl

/-! ## Notes -/

/-- The note of an instruction that compares, for an operator between its operands. -/
def noteText (p : Prototype) (j : Instruction) (op : BinaryOp) : String :=
  "if " ++ Listing.slot p j.b ++ " " ++ op.symbol ++ " " ++ Listing.slot p j.c ++ " then PC += 1"

theorem symbol_injective {op op' : BinaryOp} (h : op.symbol = op'.symbol) : op = op' := by
  cases op <;> cases op' <;> revert h <;> decide

/-- The operator is read off the note. -/
theorem noteText_injective (p : Prototype) (j : Instruction) :
    Function.Injective (noteText p j) := by
  intro op op' h
  simp only [noteText, String.append_assoc, String.append_right_inj] at h
  exact symbol_injective ((String.append_left_inj _).mp h)

/-- The operator in the note.  For `lt` and `le` it is mirrored when the flag is set. -/
def Comparer.printed (s : Comparer) : BinaryOp :=
  match s.what, s.flag with
  | .eq, false => .eq
  | .eq, true => .ne
  | .lt, false => .lt
  | .lt, true => .gt
  | .le, false => .le
  | .le, true => .ge

theorem note_recovered (p : Prototype) (s : Comparer) (i : Instruction) :
    Listing.note p (s.recovered i) = some (noteText p (s.recovered i) s.printed) := by
  rcases s with ⟨what, flag, l, r⟩ | _
  · cases what <;> cases flag <;> rfl
  · rfl

section
variable [LinearOrder V]

/-! Of values that differ, mirroring a comparison negates it. -/

theorem mirrored_lt {x y : V} (h : x ≠ y) : decide (y < x) = !decide (x < y) := by
  rw [← decide_not, decide_eq_decide, not_lt]
  exact (Ne.le_iff_lt (Ne.symm h)).symm

theorem mirrored_le {x y : V} (h : x ≠ y) : decide (y ≤ x) = !decide (x ≤ y) := by
  rw [← decide_not, decide_eq_decide, not_le]
  exact Ne.le_iff_lt (Ne.symm h)

/-- When the flag of an `lt` or `le` is set, the printed comparison of equal values comes out the wrong
way round; all others are right. -/
theorem compare_printed (s : Comparer) (x y : V) :
    compare? x y s.printed
      = some (if s.what ≠ .eq ∧ s.flag = true ∧ x = y then !(s.what.holds x y != s.flag)
          else s.what.holds x y != s.flag) := by
  unfold Comparer.printed
  cases s.what <;> cases s.flag
  case lt.true =>
    by_cases h : x = y
    · simp [compare?, Compared.holds, h]
    · simp [compare?, Compared.holds, h, mirrored_lt h]
  case le.true =>
    by_cases h : x = y
    · simp [compare?, Compared.holds, h]
    · simp [compare?, Compared.holds, h, mirrored_le h]
  all_goals simp [compare?, Compared.holds]

/-- The printed comparison against what the recovered instruction does. -/
theorem compare_recovered (v : Valuation V) (s : Comparer) (i : Instruction) :
    let j := s.recovered i
    compare? (v.slot j.b) (v.slot j.c) s.printed
      = some (if j.opcode ≠ some .eq ∧ j.a ≠ 0 ∧ v.slot j.b = v.slot j.c then !skips v j
          else skips v j) := by
  intro j
  have hop : j.opcode ≠ some .eq ↔ s.what ≠ .eq := by
    change some s.what.opcode ≠ some .eq ↔ _
    cases s.what <;> simp [Compared.opcode]
  have hflag : j.a ≠ 0 ↔ s.flag = true := by
    change (if s.flag then (1 : Operand) else 0) ≠ 0 ↔ _
    cases s.flag <;> simp
  have hskips : skips v j = (s.what.holds (v.slot j.b) (v.slot j.c) != s.flag) :=
    skips_recovered v s i
  rw [compare_printed, hskips]
  exact congrArg some
    (if_congr (and_congr hop (and_congr hflag Iff.rfl)) rfl rfl).symm

end

/-- Every instruction that recovery makes an `Eq`, `Lt` or `Le` has one of the handlers that compare.
If its operands are what the handler takes them for, then the handler goes to the next instruction just
when the recovered instruction skips.  The note has one comparison, of the operands of the recovered
instruction, and that holds just when the instruction skips; only if the flag of an `Lt` or `Le` is set
and the two values are equal is it the other way round. -/
theorem relation_of_note {handlers : HandlerTable} {root p q : Prototype} {path : List Nat}
    {k : Nat} {i j : Instruction} (hp : root.descend? path = some p)
    (hi : p.instructions[k]? = some i) (hopen : i.opcode = none)
    (hq : (root.recover handlers).1.descend? path = some q) (hj : q.instructions[k]? = some j)
    (hop : j.opcode = some .eq ∨ j.opcode = some .lt ∨ j.opcode = some .le) :
    ∃ s : Comparer, handlers.get? i.opNum = some s.body.fingerprint ∧
      (s.Fits i → ∀ (V : Type) [LinearOrder V] (v : Valuation V) (pc : Int),
        next? v i pc s.body = some (if skips v j then pc + 1 else i.b.toInt)) ∧
      (∃ op, Listing.note q j = some (noteText q j op)) ∧
      ∀ op, Listing.note q j = some (noteText q j op) →
        ∀ (V : Type) [LinearOrder V] (v : Valuation V),
          compare? (v.slot j.b) (v.slot j.c) op
            = some (if j.opcode ≠ some .eq ∧ j.a ≠ 0 ∧ v.slot j.b = v.slot j.c then !skips v j
                else skips v j) := by
  obtain ⟨what, hwhat⟩ : ∃ what : Compared, j.opcode = some what.opcode := by
    rcases hop with h | h | h
    · exact ⟨.eq, h⟩
    · exact ⟨.lt, h⟩
    · exact ⟨.le, h⟩
  have hstep := Recovery.getElem?_recover _ _ hp hi hq hj
  obtain ⟨fp, hfp, hres⟩ := Recovery.resolve_of_step _ _ hopen (hstep ▸ hwhat)
  rw [← hstep] at hres
  obtain ⟨s, rfl, rfl⟩ := exists_comparer hres hwhat
  refine ⟨s, hfp, ?_, ⟨_, note_recovered ..⟩, ?_⟩
  · intro hfits V _ v pc
    rw [next_body, skips_recovered, slot_of_names v hfits.1, slot_of_names v hfits.2, landing]
  · intro op hnote V _ v
    -- The note that is printed has no other reading.
    obtain rfl : op = s.printed := by
      apply noteText_injective q
      simpa [note_recovered] using hnote.symm
    exact compare_recovered v s _

/-- Less than, with the flag set, between two registers. -/
def notLess : Comparer := .branch .lt true false false

/-- Compares registers 1 and 2; the handler may jump to the sixth instruction. -/
def probe : Instruction := ⟨7, none, 1, 5, 2, 0, false⟩

def probeHandlers : HandlerTable := .insert .empty 7 notLess.body.fingerprint

theorem recover_probe :
    ((single probe).recover probeHandlers).1 = single (notLess.recovered probe) :=
  recover_single rfl rfl (by simp [probeHandlers, probe])
    (resolve_body notLess { probe with pc := .ofNat 0 })

theorem descend?_probe : ((single probe).recover probeHandlers).1.descend? []
    = some (single (notLess.recovered probe)) :=
  congrArg some recover_probe

theorem eq_notLess : ∀ s ∈ Comparer.all,
    notLess.body.fingerprint = s.body.fingerprint → s = notLess := by decide +kernel

theorem relation_of_note_probe :
    ((single probe).recover probeHandlers).1.instructions = [notLess.recovered probe] ∧
      (∀ (v : Valuation Nat) (pc : Int), next? v probe pc notLess.body
        = some (if skips v (notLess.recovered probe) then pc + 1 else 5)) ∧
      ∃ op, Listing.note (single (notLess.recovered probe)) (notLess.recovered probe)
          = some (noteText (single (notLess.recovered probe)) (notLess.recovered probe) op) ∧
        ∀ v : Valuation Nat, v.registers 1 ≠ v.registers 2 →
          compare? (v.registers 1) (v.registers 2) op = some (skips v (notLess.recovered probe)) := by
  obtain ⟨s, hs, hnext, ⟨op, hop⟩, hnote⟩ :=
    relation_of_note (rfl : (single probe).descend? [] = some (single probe))
      (rfl : (single probe).instructions[0]? = some probe) rfl descend?_probe rfl
      (.inr (.inl rfl))
  obtain rfl : s = notLess := by
    apply eq_notLess s s.mem_all
    simpa [probeHandlers, probe] using hs
  have hfits : notLess.Fits probe := ⟨by decide, by decide⟩
  refine ⟨congrArg Prototype.instructions recover_probe, hnext hfits Nat, op, hop, ?_⟩
  intro v hne
  have hcompare := hnote op hop Nat v
  rwa [if_neg fun h => hne h.2.2] at hcompare

/-- Notes do not in general say when the next instruction is skipped: that of a recovered `Lt` with its
flag set says that it is not when the two values are equal, and then it is. -/
theorem relation_of_note_equal :
    ¬ ∀ (handlers : HandlerTable) (root p q : Prototype) (path : List Nat) (k : Nat)
      (i j : Instruction), root.descend? path = some p → p.instructions[k]? = some i →
      i.opcode = none → (root.recover handlers).1.descend? path = some q →
      q.instructions[k]? = some j →
      (j.opcode = some .eq ∨ j.opcode = some .lt ∨ j.opcode = some .le) →
      ∀ op, Listing.note q j = some (noteText q j op) → ∀ v : Valuation Nat,
        compare? (v.slot j.b) (v.slot j.c) op = some (skips v j) := by
  intro h
  -- All registers hold zero, so that registers 1 and 2 are equal.
  have hsame := h probeHandlers (single probe) _ _ [] 0 probe _ rfl rfl rfl descend?_probe rfl
    (.inr (.inl rfl)) _ (note_recovered ..) ⟨fun _ => 0, fun _ => 0⟩
  have hsides : some false = some true := hsame
  cases hsides

end Comparing

end Devirt
