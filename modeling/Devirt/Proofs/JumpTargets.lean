import Devirt.Proofs.ImageFailure
import Mathlib.Tactic

set_option autoImplicit false

/-! # Where recovered jumps land

The obfuscator stores the target of a jump as an index; a recovered jump counts from the instruction
after it.  `Lands` says that the operand of a recovered jump, and the word that it is packed into, lead
to the stored target, and `jumps_land` that every recovered jump does so.  The `pc` that an instruction
comes with has no say in this: recovery sets it before it needs it (`recoverWith_unplaced`). -/

namespace Devirt

/-! ## Offsets -/

namespace Rule

/-- The index of an instruction that is not too far down is exact. -/
theorem toInt_position (i : Instruction) {k : Nat} (hk : k < 0x80000000) :
    (position { i with pc := .ofNat k }).toInt = k := by
  have hpc : (UInt64.ofNat k).toNat = k := UInt64.toNat_ofNat_of_lt' (by simp only [UInt64.size]; omega)
  rw [position, hpc]
  exact Operand.toInt_clamp (by omega) (by omega)

/-- The distance from an instruction to a target, saturating nowhere. -/
theorem toInt_distance (i : Instruction) {t : Operand} {k : Nat} {n : Int} (hn : 0 ≤ n)
    (hk : k + n < 0x80000000) (ht : 0 ≤ t.toInt) :
    (t.minus ((position { i with pc := .ofNat k }).plus n)).toInt = t.toInt - (k + n) := by
  have hposition : (position { i with pc := .ofNat k }).toInt = k := toInt_position i (by omega)
  have hmost : t.toInt < 2 ^ 31 := t.toInt_lt
  rw [Operand.toInt_minus_plus t (by omega) (by omega), hposition]
  exact Operand.nearest_of_le (by omega) (by omega)

end Rule

/-! ## Landing -/

/-- The jump at an index leads to the target if it counts from `base` instructions on, and so does
its word, if it has one. -/
structure Lands (function : String) (index : Nat) (j : Instruction) (base target : Int) : Prop where
  operand : index + base + j.b.toInt = target
  word : ∀ w, Binary.pack function index j = .ok w →
    index + base + Binary.sbxField w = target

/-- A jump that is put right to the distance from its index to the target. -/
theorem Lands.of_distance (function : String) {i j : Instruction} {op : Opcode} {k : Nat} {n : Int}
    (hlive : j.dead = false) (hop : j.opcode = some op) (hformat : op.format = .asbx)
    (hb : j.b = i.b.minus ((Rule.position { i with pc := .ofNat k }).plus n))
    (hn : 0 ≤ n) (hk : k + n < 0x80000000) (ht : 0 ≤ i.b.toInt) :
    Lands function k j n i.b.toInt := by
  have hvalue : j.b.toInt = i.b.toInt - (k + n) := by
    rw [hb]
    exact Rule.toInt_distance i hn hk ht
  constructor
  · omega
  · intro w hw
    have hsays := Binary.says_of_pack hlive hop hw
    rw [Binary.Says, hformat] at hsays
    obtain ⟨-, -, hsbx⟩ := hsays
    dsimp only at hsbx
    omega

/-- Just the plain jump and the end of a numeric loop keep their target in B, and just its beginning the
index after its target. -/
theorem Catalog.jump_shapes :
    ∀ sh ∈ moonSecV3.shapes, (sh.rule = .jump ↔ sh.op = .jmp ∨ sh.op = .forLoop) ∧
      (sh.rule = .loopPrep ↔ sh.op = .forPrep) := by
  decide +kernel

/-! ## Indices that come with a tree -/

instance (i : Instruction) : Decidable i.Open := inferInstanceAs (Decidable (_ ∧ _))

/-- An open instruction without its `pc`; the others as they are. -/
def Instruction.unplaced (i : Instruction) : Instruction := if i.Open then { i with pc := 0 } else i

/-- The tree without the `pc` of its open instructions. -/
def Prototype.unplaced (p : Prototype) : Prototype := p.mapCode fun _ => Instruction.unplaced

theorem Prototype.code_mapCode (f : Instruction → Instruction) (p : Prototype) :
    (p.mapCode fun _ => f).code = p.code.map f := by
  rw [code, sites_mapCode, code, List.map_map, List.map_map]
  rfl

namespace Recovery

variable (catalog : Catalog) (handlers : HandlerTable)

theorem settle_unplaced (index : Nat) (i : Instruction) :
    settle catalog handlers index i.unplaced = settle catalog handlers index i := by
  unfold Instruction.unplaced
  split_ifs with h
  · obtain ⟨hlive, hop⟩ := h
    simp [settle, hlive, hop]
  · rfl

theorem account_unplaced (r : Report) (i : Instruction) :
    account catalog handlers r i.unplaced = account catalog handlers r i := by
  unfold Instruction.unplaced
  split_ifs <;> rfl

/-- Recovery does not look at the `pc` of an open instruction. -/
theorem recoverWith_unplaced (root : Prototype) :
    root.unplaced.recoverWith catalog handlers = root.recoverWith catalog handlers := by
  apply Prod.ext
  · rw [recoverWith_fst, recoverWith_fst, Prototype.unplaced, Prototype.mapCode_mapCode]
    simp only [settle_unplaced]
  · rw [recoverWith_snd, recoverWith_snd, Prototype.unplaced, Prototype.code_mapCode,
      List.foldl_map]
    simp only [account_unplaced]

/-! ## The main theorem -/

/-- A recovered jump leads to the index that the handler kept as its target, counting from the next
instruction, or from the one after that at the beginning of a numeric loop.  If the tree has an image,
then the jump has a word, and that leads there too.  Trees that differ at most in the `pc` of open
instructions are recovered alike. -/
theorem jumps_land (handlers : HandlerTable) :
    (∀ (root p : Prototype) (path : List Nat) (k : Nat) (i : Instruction) (sh : Shape),
        root.descend? path = some p → p.instructions[k]? = some i →
        i.dead = false → i.opcode = none →
        sh ∈ Catalog.moonSecV3.shapes → handlers.get? i.opNum = some sh.fingerprint →
        k < 2 ^ 31 - 3 → 0 ≤ i.b.toInt →
        ∃ q j, (root.recover handlers).1.descend? path = some q ∧ q.instructions[k]? = some j ∧
          (∀ bytes, (root.recover handlers).1.image = .ok bytes →
            ∃ w, Binary.pack q.name k j = .ok w) ∧
          (sh.rule = .jump →
            (j.opcode = some .jmp ∨ j.opcode = some .forLoop) ∧
              Lands q.name k j 1 i.b.toInt) ∧
          (sh.rule = .loopPrep → j.opcode = some .forPrep ∧ Lands q.name k j 2 i.b.toInt)) ∧
      ∀ root other : Prototype, other.unplaced = root.unplaced →
        other.recover handlers = root.recover handlers := by
  constructor
  · intro root p path k i sh hp hi hlive hop hmem hfp hk ht
    have hsh := shape?_of_mem Catalog.nodup_fingerprints hmem hfp
    obtain ⟨q, hq, -, -, hj⟩ := exists_recovered .moonSecV3 handlers hp hi hlive hop hsh
    obtain ⟨hjump, hprep⟩ := Catalog.jump_shapes sh hmem
    refine ⟨q, _, hq, hj, ?_, ?_, ?_⟩
    · intro bytes himage
      have hsite := failure_eq_none himage _ (Prototype.mem_sites_of_place hq hj)
      exact errorOf_eq_none.mp hsite
    · intro hrule
      rw [hrule]
      rcases hjump.mp hrule with hjmp | hloop
      · refine ⟨.inl (congrArg some hjmp), ?_⟩
        exact .of_distance q.name hlive rfl (congrArg Opcode.format hjmp) rfl (by omega) (by omega) ht
      · refine ⟨.inr (congrArg some hloop), ?_⟩
        exact .of_distance q.name hlive rfl (congrArg Opcode.format hloop) rfl (by omega) (by omega) ht
    · intro hrule
      have hop' := hprep.mp hrule
      rw [hrule]
      refine ⟨congrArg some hop', ?_⟩
      exact .of_distance q.name hlive rfl (congrArg Opcode.format hop') rfl (by omega) (by omega) ht
  · intro root other h
    calc other.recover handlers = other.unplaced.recover handlers :=
          (recoverWith_unplaced .moonSecV3 handlers other).symm
      _ = root.unplaced.recover handlers := by rw [h]
      _ = root.recover handlers := recoverWith_unplaced .moonSecV3 handlers root

/-- A loop over a dead instruction.  Its jump claims to be the hundredth instruction. -/
def backward (pc : UInt64) : Prototype :=
  .mk ⟨"main", 0, 0, 2, 0⟩ [.deadSlot, ⟨40, none, 0, 0, 0, pc, false⟩] [] []

def backwardHandlers : HandlerTable := .insert .empty 40 "2990"

theorem jumps_land_backward :
    ⟨"2990", .jmp, .jump⟩ ∈ Catalog.moonSecV3.shapes ∧
      backwardHandlers.get? 40 = some "2990" ∧
      (∃ q j, ((backward 99).recover backwardHandlers).1.descend? [] = some q ∧
        q.instructions[1]? = some j ∧ j.b.toInt = -2 ∧ Lands q.name 1 j 1 0) ∧
      (backward 99).recover backwardHandlers = (backward 1).recover backwardHandlers := by
  have hmem : ⟨"2990", .jmp, .jump⟩ ∈ Catalog.moonSecV3.shapes := by decide +kernel
  have hfp : backwardHandlers.get? 40 = some "2990" := by simp [backwardHandlers]
  obtain ⟨hland, hsame⟩ := jumps_land backwardHandlers
  obtain ⟨q, j, hq, hj, -, hjump, -⟩ :=
    hland (backward 99) (backward 99) [] 1 ⟨40, none, 0, 0, 0, 99, false⟩ ⟨"2990", .jmp, .jump⟩ rfl rfl
      rfl rfl hmem hfp (by omega) (by decide)
  obtain ⟨-, hlands⟩ := hjump rfl
  have hb : (1 : Nat) + 1 + j.b.toInt = 0 := hlands.operand
  exact ⟨hmem, hfp, ⟨q, j, hq, hj, by omega, hlands⟩, hsame (backward 1) (backward 99) rfl⟩

end Recovery

end Devirt
