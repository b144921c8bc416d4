import Devirt.Binary.Word
import Mathlib.Tactic

set_option autoImplicit false

/-! # The fields of an instruction word

In Lua 5.1 a word is split by position: the opcode stands in the lowest 6 bits, A in the 8 bits above,
and then either C and B in 9 bits each, or one wide field in 18 bits.

`operands` lists what the format of an opcode packs, with the range of each field.  All that packing can
come to is listed by `pack_cases`, and `pack_exact` reads off from it when an instruction is packed, what
the fields of its word say, and what is blamed if it is not. -/

namespace Devirt

namespace Binary

/-! ## Splitting a word -/

/-- The number in `size` bits of a word, from bit `start` on. -/
def bits (start size : Nat) (w : UInt32) : Nat := (w.toBitVec.extractLsb' start size).toNat

def opField (w : UInt32) : Nat := bits 0 6 w

def aField (w : UInt32) : Nat := bits 6 8 w

def cField (w : UInt32) : Nat := bits 14 9 w

def bField (w : UInt32) : Nat := bits 23 9 w

def bxField (w : UInt32) : Nat := bits 14 18 w

/-- The wide field as a signed number. -/
def sbxField (w : UInt32) : Int := bxField w - 131071

theorem bits_eq (start size : Nat) (w : UInt32) :
    bits start size w = w.toNat / 2 ^ start % 2 ^ size := by
  rw [bits, BitVec.extractLsb'_toNat, Nat.shiftRight_eq_div_pow, UInt32.toNat_toBitVec]

theorem fields_packABC {op a b c : Nat} (hop : op < 64) (ha : a < 256) (hb : b < 512)
    (hc : c < 512) :
    opField (packABC op a b c) = op ∧ aField (packABC op a b c) = a ∧
      bField (packABC op a b c) = b ∧ cField (packABC op a b c) = c := by
  have hword : (packABC op a b c).toNat = op + a * 64 + c * 16384 + b * 8388608 := by
    exact UInt32.toNat_ofNat_of_lt' (by simp only [UInt32.size]; omega)
  simp only [opField, aField, bField, cField, bits_eq, hword]
  refine ⟨?_, ?_, ?_, ?_⟩ <;> omega

theorem fields_packABx {op a bx : Nat} (hop : op < 64) (ha : a < 256) (hbx : bx < 262144) :
    opField (packABx op a bx) = op ∧ aField (packABx op a bx) = a ∧
      bxField (packABx op a bx) = bx := by
  have hword : (packABx op a bx).toNat = op + a * 64 + bx * 16384 := by
    exact UInt32.toNat_ofNat_of_lt' (by simp only [UInt32.size]; omega)
  simp only [opField, aField, bxField, bits_eq, hword]
  refine ⟨?_, ?_, ?_⟩ <;> omega

/-! ## Operands and their ranges -/

/-- An operand with the range of its field. -/
structure Ranged where
  letter : Char
  value : Operand
  least : Int
  most : Int

def Ranged.Fits (o : Ranged) : Prop := o.least ≤ o.value.toInt ∧ o.value.toInt ≤ o.most

instance (o : Ranged) : Decidable o.Fits := inferInstanceAs (Decidable (_ ∧ _))

/-- What a format packs of an instruction, in the order in which it is looked at. -/
def operands (i : Instruction) : Opcode.Format → List Ranged
  | .abc => [⟨'A', i.a, 0, 255⟩, ⟨'B', i.b, 0, 511⟩, ⟨'C', i.c, 0, 511⟩]
  | .abx => [⟨'A', i.a, 0, 255⟩, ⟨'B', i.b, 0, 262143⟩]
  | .asbx => [⟨'A', i.a, 0, 255⟩, ⟨'B', i.b, -131071, 131072⟩]

/-- The word of an instruction whose operands fit. -/
def wordOf (op : Opcode) (i : Instruction) : UInt32 :=
  match op.format with
  | .abc => packABC op.number i.a.toInt.toNat i.b.toInt.toNat i.c.toInt.toNat
  | .abx => packABx op.number i.a.toInt.toNat i.b.toInt.toNat
  | .asbx => packABx op.number i.a.toInt.toNat (i.b.toInt + 131071).toNat

/-- What the fields of the word of an instruction say. -/
def Says (w : UInt32) (op : Opcode) (i : Instruction) : Prop :=
  opField w = op.number ∧ aField w = i.a.toInt ∧
    match op.format with
    | .abc => bField w = i.b.toInt ∧ cField w = i.c.toInt
    | .abx => bxField w = i.b.toInt
    | .asbx => sbxField w = i.b.toInt

theorem says_wordOf {op : Opcode} {i : Instruction} (h : ∀ o ∈ operands i op.format, o.Fits) :
    Says (wordOf op i) op i := by
  have hop : op.number < 64 := op.number_lt.trans (by omega)
  unfold Says wordOf
  cases hformat : op.format with
  | abc =>
      simp only [hformat, operands, Ranged.Fits, List.forall_mem_cons] at h
      obtain ⟨⟨ha, ha'⟩, ⟨hb, hb'⟩, ⟨hc, hc'⟩, -⟩ := h
      have haLt : i.a.toInt.toNat < 256 := by omega
      have hbLt : i.b.toInt.toNat < 512 := by omega
      have hcLt : i.c.toInt.toNat < 512 := by omega
      obtain ⟨hopField, haField, hbField, hcField⟩ := fields_packABC hop haLt hbLt hcLt
      dsimp only
      refine ⟨hopField, ?_, ?_, ?_⟩ <;> omega
  | abx =>
      simp only [hformat, operands, Ranged.Fits, List.forall_mem_cons] at h
      obtain ⟨⟨ha, ha'⟩, ⟨hb, hb'⟩, -⟩ := h
      have haLt : i.a.toInt.toNat < 256 := by omega
      have hbLt : i.b.toInt.toNat < 262144 := by omega
      obtain ⟨hopField, haField, hbxField⟩ := fields_packABx hop haLt hbLt
      dsimp only
      refine ⟨hopField, ?_, ?_⟩ <;> omega
  | asbx =>
      simp only [hformat, operands, Ranged.Fits, List.forall_mem_cons] at h
      obtain ⟨⟨ha, ha'⟩, ⟨hb, hb'⟩, -⟩ := h
      have haLt : i.a.toInt.toNat < 256 := by omega
      have hbLt : (i.b.toInt + 131071).toNat < 262144 := by omega
      obtain ⟨hopField, haField, hbxField⟩ := fields_packABx hop haLt hbLt
      dsimp only [sbxField]
      refine ⟨hopField, ?_, ?_⟩ <;> omega

/-! ## Packing -/

section
variable (function : String) (index : Nat)

/-- A field goes on with the operand, counted from its least value, if the operand is in range. -/
theorem field_bind {β : Type} (letter : Char) (value : Operand) (offset most : Int)
    (next : Nat → Except PackError β) :
    (field letter value offset most function index >>= next)
      = if (⟨letter, value, -offset, most - offset⟩ : Ranged).Fits
        then next (value.toInt + offset).toNat
        else .error (.outOfRange function index letter value) := by
  have hfits : (0 ≤ value.toInt + offset ∧ value.toInt + offset ≤ most)
      ↔ (⟨letter, value, -offset, most - offset⟩ : Ranged).Fits := by
    show _ ↔ -offset ≤ value.toInt ∧ value.toInt ≤ most - offset
    omega
  by_cases h : 0 ≤ value.toInt + offset ∧ value.toInt + offset ≤ most
  · rw [if_pos (hfits.mp h)]
    simp only [field, if_pos h]
    rfl
  · rw [if_neg (mt hfits.mpr h)]
    simp only [field, if_neg h]
    rfl

/-- The word, unless one of the operands is out of range: then the first of these is blamed. -/
def checked (os : List Ranged) (w : UInt32) : Except PackError UInt32 :=
  match os.find? fun o => ¬ o.Fits with
  | some o => .error (.outOfRange function index o.letter o.value)
  | none => .ok w

theorem checked_nil (w : UInt32) : checked function index [] w = .ok w := rfl

theorem checked_cons (o : Ranged) (os : List Ranged) (w : UInt32) :
    checked function index (o :: os) w
      = if o.Fits then checked function index os w
        else .error (.outOfRange function index o.letter o.value) := by
  by_cases h : o.Fits
  · rw [if_pos h, checked, List.find?_cons_of_neg (by simpa using h)]
    rfl
  · rw [if_neg h, checked, List.find?_cons_of_pos (by simpa using h)]

variable {function index}

theorem checked_eq_ok {os : List Ranged} {w w' : UInt32} :
    checked function index os w = .ok w' ↔ (∀ o ∈ os, o.Fits) ∧ w = w' := by
  unfold checked
  cases hfind : os.find? fun o => ¬ o.Fits with
  | none =>
      have hfits : ∀ o ∈ os, o.Fits := by simpa using hfind
      constructor
      · intro h
        exact ⟨hfits, Except.ok.inj h⟩
      · rintro ⟨-, rfl⟩
        rfl
  | some o =>
      have hout : ¬ o.Fits := by simpa using List.find?_some hfind
      have hmem : o ∈ os := List.mem_of_find?_eq_some hfind
      constructor
      · intro h
        cases h
      · rintro ⟨hfits, -⟩
        exact absurd (hfits o hmem) hout

theorem checked_eq_error {os : List Ranged} {w : UInt32} {e : PackError} :
    checked function index os w = .error e ↔
      ∃ o, (os.find? fun o => ¬ o.Fits) = some o ∧
        e = .outOfRange function index o.letter o.value := by
  unfold checked
  cases os.find? fun o => ¬ o.Fits with
  | none => simp
  | some o => simp [eq_comm]

variable (function index)

/-- A live instruction with an opcode is packed if its operands are in range. -/
theorem pack_of_opcode {i : Instruction} {op : Opcode} (hlive : i.dead = false)
    (hop : i.opcode = some op) :
    pack function index i = checked function index (operands i op.format) (wordOf op i) := by
  -- the limits of the fields are the ranges of the operands
  have ha : (⟨'A', i.a, -0, maxA - 0⟩ : Ranged) = ⟨'A', i.a, 0, 255⟩ := rfl
  have hb : (⟨'B', i.b, -0, maxB - 0⟩ : Ranged) = ⟨'B', i.b, 0, 511⟩ := rfl
  have hc : (⟨'C', i.c, -0, maxC - 0⟩ : Ranged) = ⟨'C', i.c, 0, 511⟩ := rfl
  have hbx : (⟨'B', i.b, -0, maxBx - 0⟩ : Ranged) = ⟨'B', i.b, 0, 262143⟩ := rfl
  have hsbx : (⟨'B', i.b, -bias, maxBx - bias⟩ : Ranged) = ⟨'B', i.b, -131071, 131072⟩ := rfl
  rw [pack, if_neg (by simp [hlive]), hop]
  simp only [field_bind, ha, wordOf]
  cases op.format with
  | abc =>
      simp only [hb, hc, operands, checked_cons, checked_nil, Int.add_zero]
      rfl
  | abx =>
      simp only [hbx, operands, checked_cons, checked_nil, Int.add_zero]
      rfl
  | asbx =>
      simp only [hsbx, operands, checked_cons, checked_nil, Int.add_zero]
      rfl

/-- The word of a dead instruction. -/
def deadWord : UInt32 := packABx Opcode.jmp.number 0 131071

/-- All that packing an instruction can come to. -/
theorem pack_cases (i : Instruction) :
    (i.dead = true ∧ pack function index i = .ok deadWord) ∨
      (i.dead = false ∧ i.opcode = none ∧
        pack function index i = .error (.unresolved function index i.opNum)) ∨
      ∃ op, i.dead = false ∧ i.opcode = some op ∧
        pack function index i = checked function index (operands i op.format) (wordOf op i) := by
  cases hdead : i.dead with
  | true =>
      refine .inl ⟨rfl, ?_⟩
      rw [pack, if_pos hdead]
      rfl
  | false =>
      cases hop : i.opcode with
      | none =>
          refine .inr (.inl ⟨rfl, rfl, ?_⟩)
          rw [pack, if_neg (by simp [hdead]), hop]
      | some op => exact .inr (.inr ⟨op, rfl, rfl, pack_of_opcode function index hdead hop⟩)

variable {function index} {i : Instruction}

/-- Just the dead instructions and those whose operands are in range are packed. -/
theorem exists_pack :
    (∃ w, pack function index i = .ok w) ↔
      i.dead = true ∨ ∃ op, i.opcode = some op ∧ ∀ o ∈ operands i op.format, o.Fits := by
  rcases pack_cases function index i with ⟨hdead, h⟩ | ⟨hlive, hop, h⟩ | ⟨op, hlive, hop, h⟩
  · simp [hdead, h]
  · simp [hlive, hop, h]
  · simp [hlive, hop, h, checked_eq_ok]

theorem says_of_pack {w : UInt32} {op : Opcode} (hlive : i.dead = false)
    (hop : i.opcode = some op) (h : pack function index i = .ok w) : Says w op i := by
  rw [pack_of_opcode function index hlive hop, checked_eq_ok] at h
  obtain ⟨hfits, rfl⟩ := h
  exact says_wordOf hfits

theorem fields_deadWord :
    opField deadWord = Opcode.jmp.number ∧ aField deadWord = 0 ∧ sbxField deadWord = 0 := by
  decide

/-- Why an instruction is not packed. -/
theorem error_of_pack {e : PackError} (h : pack function index i = .error e) :
    i.dead = false ∧
      ((i.opcode = none ∧ e = .unresolved function index i.opNum) ∨
        ∃ op o, i.opcode = some op ∧
          ((operands i op.format).find? fun o => ¬ o.Fits) = some o ∧
          e = .outOfRange function index o.letter o.value) := by
  rcases pack_cases function index i with ⟨-, hpack⟩ | ⟨hlive, hop, hpack⟩ | ⟨op, hlive, hop, hpack⟩
  · rw [hpack] at h
    cases h
  · rw [hpack] at h
    exact ⟨hlive, .inl ⟨hop, (Except.error.inj h).symm⟩⟩
  · rw [hpack, checked_eq_error] at h
    obtain ⟨o, hfind, he⟩ := h
    exact ⟨hlive, .inr ⟨op, o, hop, hfind, he⟩⟩

/-- An instruction is packed if it is dead, or if its opcode is known and each operand is in the range
of its field.  The fields of the word are then the opcode and the operands, or those of a jump by
zero.  Otherwise the opcode is blamed if there is none, and else the first operand out of range. -/
theorem pack_exact (function : String) (index : Nat) (i : Instruction) :
    ((∃ w, pack function index i = .ok w) ↔
        i.dead = true ∨ ∃ op, i.opcode = some op ∧ ∀ o ∈ operands i op.format, o.Fits) ∧
      (∀ w, pack function index i = .ok w →
        if i.dead then opField w = Opcode.jmp.number ∧ aField w = 0 ∧ sbxField w = 0
        else ∃ op, i.opcode = some op ∧ Says w op i) ∧
      ∀ e, pack function index i = .error e →
        (i.opcode = none ∧ e = .unresolved function index i.opNum) ∨
          ∃ op o, i.opcode = some op ∧
            ((operands i op.format).find? fun o => ¬ o.Fits) = some o ∧
            e = .outOfRange function index o.letter o.value := by
  refine ⟨exists_pack, ?_, fun e he => (error_of_pack he).2⟩
  intro w hw
  rcases pack_cases function index i with ⟨hdead, h⟩ | ⟨hlive, hop, h⟩ | ⟨op, hlive, hop, h⟩
  · obtain rfl : deadWord = w := Except.ok.inj (h.symm.trans hw)
    rw [if_pos hdead]
    exact fields_deadWord
  · rw [h] at hw
    cases hw
  · rw [if_neg (by simp [hlive])]
    exact ⟨op, hop, says_of_pack hlive hop hw⟩

end

end Binary

end Devirt
