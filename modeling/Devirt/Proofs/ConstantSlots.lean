import Devirt.Listing
import Devirt.Proofs.RecoveredTree
import Devirt.Proofs.WordFields
import Mathlib.Tactic

set_option autoImplicit false

/-! # Operands that are constants

The operands B and C of table accesses, of arithmetic and of comparisons are registers or constants.
The shape of a handler tells which, and its rule turns a constant, which handlers count from one, into a
slot.  The listing and the words of instructions read slots each on their own: `Means` says what an
operand is for both, and `constants_of_recovered` that after recovery it is what it was before. -/

namespace Devirt

namespace ConstantSlots

/-! ## The two operands -/

/-- The two operands that may be constants: B stands on the left, C on the right. -/
inductive Side where
  | left | right
  deriving DecidableEq

namespace Side

def operand (j : Instruction) : Side → Operand
  | left => j.b
  | right => j.c

def field (w : UInt32) : Side → Nat
  | left => Binary.bField w
  | right => Binary.cField w

def other : Side → Side
  | left => right
  | right => left

end Side

/-- The opcodes with two such operands. -/
def slotted : List Opcode :=
  [.getTable, .setTable, .selfOp, .add, .sub, .mul, .div, .mod, .pow, .eq, .lt, .le]

/-- Whether the rule says that the operand is a constant. -/
def marks (rule : Rule) : Side → Bool
  | .left => rule.constantSlots.1
  | .right => rule.constantSlots.2

/-- Where the operand is before recovery: comparisons keep the left one in A. -/
def raw (rule : Rule) (i : Instruction) : Side → Operand
  | .left =>
    match rule with
    | .compare _ _ _ => i.a
    | _ => i.b
  | .right => i.c

/-- The rules for instructions with two such operands. -/
def isSlotRule : Rule → Bool
  | .keep | .constB | .constC | .constBC | .compare _ _ _ => true
  | _ => false

theorem operand_apply {rule : Rule} (h : isSlotRule rule = true) (i : Instruction) (side : Side) :
    side.operand (rule.apply i) = Rule.slot (marks rule side) (raw rule i side) := by
  cases rule
  case keep | constB | constC | constBC | compare => cases side <;> rfl
  all_goals cases h

/-- Where the operand is does not hang on the opcode or the index. -/
theorem raw_placed (rule : Rule) (i : Instruction) (pc : UInt64) (op : Option Opcode) (side : Side) :
    raw rule { i with pc := pc, opcode := op } side = raw rule i side := by
  cases rule <;> cases side <;> rfl

/-- Which shapes have such operands, and which of them are constants; besides, the opcodes whose B is
the index of a constant. -/
theorem slot_shapes : ∀ sh ∈ Catalog.moonSecV3.shapes,
    (marks sh.rule .left = true → sh.op ∈ slotted ∧ sh.op ≠ .getTable ∧ sh.op ≠ .selfOp) ∧
      (marks sh.rule .right = true → sh.op ∈ slotted) ∧
      (sh.op ∈ slotted → isSlotRule sh.rule = true) ∧
      (sh.op ∈ [.loadK, .getGlobal, .setGlobal] → sh.rule = .constIndexB) := by
  decide +kernel

theorem format_of_slotted : ∀ op ∈ slotted, op.format = .abc := by decide

/-! ## Notes -/

/-- The text of an operand in the note: tables that are read are always registers. -/
def shown (p : Prototype) (op : Opcode) (j : Instruction) : Side → String
  | .left => if op = .getTable ∨ op = .selfOp then Listing.reg j.b else Listing.slot p j.b
  | .right => Listing.slot p j.c

/-- The operator between the two operands. -/
def sign (a : Operand) : Opcode → String
  | .add => "+"
  | .sub => "-"
  | .mul => "*"
  | .div => "/"
  | .mod => "%"
  | .pow => "^"
  | .eq => if a = 0 then "==" else "~="
  | .lt => if a = 0 then "<" else ">"
  | .le => if a = 0 then "<=" else ">="
  | _ => ""

/-- The note of an instruction whose operands read `left` and `right`. -/
def noteOf (a : Operand) (left right : String) (op : Opcode) : String :=
  match op with
  | .getTable => Listing.reg a ++ " = " ++ left ++ "[" ++ right ++ "]"
  | .setTable => Listing.reg a ++ "[" ++ left ++ "] = " ++ right
  | .selfOp =>
    Listing.reg (a.plus 1) ++ " = " ++ left ++ "; " ++ Listing.reg a ++ " = " ++ left ++ "[" ++ right
      ++ "]"
  | .eq | .lt | .le => "if " ++ left ++ " " ++ sign a op ++ " " ++ right ++ " then PC += 1"
  | _ => Listing.reg a ++ " = " ++ left ++ " " ++ sign a op ++ " " ++ right

theorem note_of_slotted {op : Opcode} (hop : op ∈ slotted) (p : Prototype) {j : Instruction}
    (hj : j.opcode = some op) :
    Listing.note p j = some (noteOf j.a (shown p op j .left) (shown p op j .right) op) := by
  rw [Listing.note, hj, Option.map_some]
  simp only [slotted, List.mem_cons, List.not_mem_nil, or_false] at hop
  rcases hop with rfl | rfl | rfl | rfl | rfl | rfl | rfl | rfl | rfl | rfl | rfl | rfl <;> rfl

/-! ## Words -/

/-- What a field of nine bits names: a constant if its highest bit is set, and else a register. -/
inductive Reference where
  | register (n : Nat)
  | constant (n : Nat)
  deriving DecidableEq

def Reference.ofField (n : Nat) : Reference :=
  if n < 256 then .register n else .constant (n - 256)

section
variable {op : Opcode} {j : Instruction} (hop : op ∈ slotted) (hlive : j.dead = false)
  (hj : j.opcode = some op)

include hop hlive hj

/-- The instruction is packed if A fits its field and so do both operands. -/
theorem exists_pack_iff (function : String) (index : Nat) (side : Side) :
    (∃ w, Binary.pack function index j = .ok w) ↔
      (0 ≤ (side.operand j).toInt ∧ (side.operand j).toInt ≤ 511) ∧
        (0 ≤ j.a.toInt ∧ j.a.toInt ≤ 255) ∧
        (0 ≤ (side.other.operand j).toInt ∧ (side.other.operand j).toInt ≤ 511) := by
  rw [Binary.exists_pack]
  cases side
  · simp [hlive, hj, format_of_slotted op hop, Binary.operands, Binary.Ranged.Fits, Side.operand,
      Side.other]
    tauto
  · simp [hlive, hj, format_of_slotted op hop, Binary.operands, Binary.Ranged.Fits, Side.operand,
      Side.other]
    tauto

theorem field_of_pack {function : String} {index : Nat} {w : UInt32}
    (h : Binary.pack function index j = .ok w) (side : Side) :
    side.field w = (side.operand j).toInt := by
  have hsays := Binary.says_of_pack hlive hj h
  rw [Binary.Says, format_of_slotted op hop] at hsays
  obtain ⟨-, -, hb, hc⟩ := hsays
  cases side
  · exact hb
  · exact hc

end

/-! ## What an operand means -/

/-- The operand on a side is written as `text` in the note and named as `target` in the word.  The
instruction is packed if the operand is accepted and A and the other operand fit. -/
structure Means (p : Prototype) (op : Opcode) (j : Instruction) (side : Side) (text : String)
    (accepted : Prop) (target : Reference) : Prop where
  note : Listing.note p j = some (noteOf j.a (shown p op j .left) (shown p op j .right) op)
  text : shown p op j side = text
  packs : ∀ function index, (∃ w, Binary.pack function index j = .ok w) ↔
    accepted ∧ (0 ≤ j.a.toInt ∧ j.a.toInt ≤ 255) ∧
      (0 ≤ (side.other.operand j).toInt ∧ (side.other.operand j).toInt ≤ 511)
  word : ∀ function index w, Binary.pack function index j = .ok w →
    Reference.ofField (side.field w) = target

section
variable {p : Prototype} {op : Opcode} {j : Instruction} {side : Side}

theorem shown_of_ne (h : side = .left → op ≠ .getTable ∧ op ≠ .selfOp) :
    shown p op j side = Listing.slot p (side.operand j) := by
  cases side with
  | left =>
      obtain ⟨hget, hself⟩ := h rfl
      exact if_neg (by simp [hget, hself])
  | right => rfl

theorem shown_of_register (h : (side.operand j).toInt < 256) :
    shown p op j side = Listing.reg (side.operand j) := by
  have hslot : Listing.slot p (side.operand j) = Listing.reg (side.operand j) := by
    rw [Listing.slot, if_neg]
    simp only [Prototype.isConstantSlot, decide_eq_true_eq]
    omega
  cases side with
  | left =>
      rw [shown]
      split_ifs
      · rfl
      · exact hslot
  | right => exact hslot

theorem constant?_of_toInt {v : Operand} {n : Nat} (hv : v.toInt = n) :
    p.constant? v = p.constants[n]? := by
  rw [Prototype.constant?, Prototype.at?, hv, if_neg (by omega), Int.toNat_natCast]

/-- A slot names the constant that handlers count as its distance from 255. -/
theorem slotConstant?_of_toInt {v : Operand} {r : Nat} (hr : 1 ≤ r) (hv : v.toInt = r + 255) :
    p.slotConstant? v = p.constants[r - 1]? := by
  have hslot : Prototype.isConstantSlot v = true := by
    simp only [Prototype.isConstantSlot, decide_eq_true_eq]
    omega
  have hbound : v.toInt < 2 ^ 31 := v.toInt_lt
  have hindex : (v.plus (-256)).toInt = (r - 1 : Nat) := by
    rw [Operand.plus, Operand.toInt_clamp (by omega) (by omega)]
    omega
  rw [Prototype.slotConstant?, if_pos hslot, constant?_of_toInt hindex]

theorem slot_of_slotConstant? {v : Operand} {c : Constant} (h : p.slotConstant? v = some c) :
    Listing.slot p v = c.text := by
  have hslot : Prototype.isConstantSlot v = true := by
    by_contra hslot
    rw [Prototype.slotConstant?, if_neg hslot] at h
    cases h
  rw [Listing.slot, if_pos hslot, h]

variable (hop : op ∈ slotted) (hlive : j.dead = false) (hj : j.opcode = some op)

include hop hlive hj

theorem means_constant (hside : side = .left → op ≠ .getTable ∧ op ≠ .selfOp) {r : Nat}
    (hr : 1 ≤ r) (hv : (side.operand j).toInt = r + 255) {c : Constant}
    (hc : p.constants[r - 1]? = some c) :
    p.slotConstant? (side.operand j) = some c ∧
      Means p op j side c.text (r ≤ 256) (.constant (r - 1)) := by
  have hconst : p.slotConstant? (side.operand j) = some c := (slotConstant?_of_toInt hr hv).trans hc
  refine ⟨hconst, note_of_slotted hop p hj, ?_, ?_, ?_⟩
  · rw [shown_of_ne hside, slot_of_slotConstant? hconst]
  · intro function index
    rw [exists_pack_iff hop hlive hj function index side, hv]
    have haccepted : (0 ≤ (r : Int) + 255 ∧ (r : Int) + 255 ≤ 511) ↔ r ≤ 256 := by omega
    rw [haccepted]
  · intro function index w hw
    have hfield := field_of_pack hop hlive hj hw side
    have hvalue : side.field w = r - 1 + 256 := by omega
    rw [Reference.ofField, if_neg (by omega), hvalue, Nat.add_sub_cancel]

theorem means_register {n : Nat} (hn : n ≤ 255) (hv : (side.operand j).toInt = n) :
    Means p op j side ("R" ++ toString n) True (.register n) := by
  refine ⟨note_of_slotted hop p hj, ?_, ?_, ?_⟩
  · rw [shown_of_register (by omega), Listing.reg, Listing.int, hv]
    rfl
  · intro function index
    rw [exists_pack_iff hop hlive hj function index side, hv]
    have haccepted : (0 ≤ (n : Int) ∧ (n : Int) ≤ 511) ↔ True := by
      simp only [iff_true]
      omega
    rw [haccepted]
  · intro function index w hw
    have hfield := field_of_pack hop hlive hj hw side
    have hvalue : side.field w = n := by omega
    rw [Reference.ofField, if_pos (by omega), hvalue]

end

/-! ## The main theorem -/

/-- An operand that a rule says is a constant, counted from one, is the slot of this constant after
recovery: it is written as the constant, and if it is among the first 256 constants it is packed as a
reference to it.  The B of a loaded constant and of a global is the index of the constant.  The other
operands of table accesses, of arithmetic and of comparisons stay the registers they are. -/
theorem constants_of_recovered {handlers : HandlerTable} {root p : Prototype} {path : List Nat}
    {k : Nat} {i : Instruction} {sh : Shape} (hp : root.descend? path = some p)
    (hi : p.instructions[k]? = some i) (hlive : i.dead = false) (hopen : i.opcode = none)
    (hmem : sh ∈ Catalog.moonSecV3.shapes) (hfp : handlers.get? i.opNum = some sh.fingerprint)
    (hpool : p.constants.length < 2 ^ 31 - 256) :
    ∃ q j, (root.recover handlers).1.descend? path = some q ∧ q.instructions[k]? = some j ∧
      q.constants = p.constants ∧ j.opcode = some sh.op ∧
      (∀ side (r : Nat) c, marks sh.rule side = true → 1 ≤ r → p.constants[r - 1]? = some c →
        (raw sh.rule i side).toInt = r →
        (side.operand j).toInt = r + 255 ∧ q.slotConstant? (side.operand j) = some c ∧
          Means q sh.op j side c.text (r ≤ 256) (.constant (r - 1))) ∧
      (∀ (r : Nat) c, sh.op ∈ [.loadK, .getGlobal, .setGlobal] → 1 ≤ r → p.constants[r - 1]? = some c →
        i.b.toInt = r → j.b.toInt = r - 1 ∧ q.constant? j.b = some c) ∧
      ∀ side (n : Nat), sh.op ∈ slotted → marks sh.rule side = false → n ≤ 255 →
        (raw sh.rule i side).toInt = n → Means q sh.op j side ("R" ++ toString n) True (.register n) := by
  have hsh := Recovery.shape?_of_mem Catalog.nodup_fingerprints hmem hfp
  obtain ⟨q, hq, -, hconstants, hj⟩ :=
    Recovery.exists_recovered .moonSecV3 handlers hp hi hlive hopen hsh
  obtain ⟨hleft, hright, hrule, hindex⟩ := slot_shapes sh hmem
  generalize hplaced : ({ i with pc := .ofNat k, opcode := some sh.op } : Instruction) = placed at hj
  have hop : (sh.rule.apply placed).opcode = some sh.op := by
    rw [Rule.opcode_apply, ← hplaced]
  have hdead : (sh.rule.apply placed).dead = false := by
    rw [Rule.dead_apply, ← hplaced]
    exact hlive
  have hraw : ∀ side, raw sh.rule placed side = raw sh.rule i side := fun side => by
    rw [← hplaced, raw_placed]
  refine ⟨q, _, hq, hj, hconstants, hop, ?_, ?_, ?_⟩
  · intro side r c hmark hr hc hvalue
    have hslotted : sh.op ∈ slotted := by
      cases side with
      | left => exact (hleft hmark).1
      | right => exact hright hmark
    have hside : side = .left → sh.op ≠ .getTable ∧ sh.op ≠ .selfOp := by
      rintro rfl
      exact (hleft hmark).2
    have hlength : r - 1 < p.constants.length := (List.getElem?_eq_some_iff.mp hc).1
    have hslot : (side.operand (sh.rule.apply placed)).toInt = r + 255 := by
      rw [operand_apply (hrule hslotted), hmark, hraw, ← hvalue]
      exact Rule.toInt_constantSlot (by omega) (by omega)
    rw [← hconstants] at hc
    exact ⟨hslot, means_constant hslotted hdead hop hside hr hslot hc⟩
  · intro r c hload hr hc hvalue
    have hb : (sh.rule.apply placed).b = i.b.plus (-1) := by
      rw [hindex hload, ← hplaced]
      rfl
    have hbound : i.b.toInt < 2 ^ 31 := i.b.toInt_lt
    have hprevious : (sh.rule.apply placed).b.toInt = (r - 1 : Nat) := by
      rw [hb, Operand.plus, hvalue, Operand.toInt_clamp (by omega) (by omega)]
      omega
    refine ⟨by omega, ?_⟩
    rw [constant?_of_toInt hprevious, hconstants, hc]
  · intro side n hslotted hmark hn hvalue
    have hslot : (side.operand (sh.rule.apply placed)).toInt = n := by
      rw [operand_apply (hrule hslotted), hmark, hraw]
      exact hvalue
    exact means_register hslotted hdead hop hn hslot

/-- A sum of the second constant and register 4. -/
def constantSum : Prototype :=
  .mk ⟨"main", 0, 0, 5, 0⟩ [⟨7, none, 0, 2, 4, 0, false⟩] [.nil, .string "x"] []

def constantSumHandlers : HandlerTable := .insert .empty 7 "919015909190"

theorem constants_of_recovered_sum :
    ⟨"919015909190", .add, .constB⟩ ∈ Catalog.moonSecV3.shapes ∧
      constantSumHandlers.get? 7 = some "919015909190" ∧
      constantSum.constants.length < 2 ^ 31 - 256 ∧
      ∃ q j, (constantSum.recover constantSumHandlers).1.descend? [] = some q ∧
        q.instructions[0]? = some j ∧ q.slotConstant? j.b = some (.string "x") ∧
        Listing.note q j = some (noteOf j.a "\"x\"" "R4" .add) ∧
        ∀ function index w, Binary.pack function index j = .ok w →
          Reference.ofField (Binary.bField w) = .constant 1 ∧
            Reference.ofField (Binary.cField w) = .register 4 := by
  have hmem : ⟨"919015909190", .add, .constB⟩ ∈ Catalog.moonSecV3.shapes := by decide +kernel
  have hfp : constantSumHandlers.get? 7 = some "919015909190" := by simp [constantSumHandlers]
  have hpool : constantSum.constants.length < 2 ^ 31 - 256 := by decide
  obtain ⟨q, j, hq, hj, -, -, hconstant, -, hregister⟩ :=
    constants_of_recovered (rfl : constantSum.descend? [] = some constantSum)
      (rfl : constantSum.instructions[0]? = some ⟨7, none, 0, 2, 4, 0, false⟩) rfl rfl hmem hfp hpool
  obtain ⟨-, hx, hleft⟩ := hconstant .left 2 (.string "x") rfl (by decide) rfl (by decide)
  have hright := hregister .right 4 (by decide) rfl (by decide) (by decide)
  refine ⟨hmem, hfp, hpool, q, j, hq, hj, hx, ?_, ?_⟩
  · have hquoted : (Constant.string "x").text = "\"x\"" := by decide
    rw [hleft.note, hleft.text, hright.text, hquoted]
    rfl
  · intro function index w hw
    exact ⟨hleft.word function index w hw, hright.word function index w hw⟩

end ConstantSlots

end Devirt
