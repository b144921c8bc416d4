import Devirt.Catalog.MoonSecV3
import Devirt.Listing
import Devirt.Proofs.RecoveredTree
import Mathlib.Tactic

set_option autoImplicit false

/-! # Registers that a recovered count stands for

Handlers keep the last register of a range where the instruction set keeps how many registers there
are.  A call counts its arguments and its results from one on, a return its values from one on, and the
instruction that fills a table its items from zero on; zero and one have meanings of their own.  The rule
of the shape makes the count and the note turns it back into registers.  `note_of_counts` says that
these are the registers the handler means: no count in between is taken for another, and none is off by
one.

Words saturate, so a register behind the greatest word is written as the greatest word, and so is an
element of a table. -/

namespace Devirt

namespace Operand

def greatest : Int := 0x7fffffff

/-- A number as far as a word can hold it. -/
def capped (n : Int) : Int := min n greatest

theorem capped_of_le {n : Int} (h : n ≤ greatest) : capped n = n := min_eq_left h

/-- Too great a number is clamped to the greatest word. -/
theorem toInt_clamp_eq_capped {n : Int} (lo : -0x80000000 ≤ n) : (clamp n).toInt = capped n := by
  rw [toInt_clamp_eq, nearest, capped, greatest, max_eq_right (by omega)]

theorem toInt_plus {x : Operand} {n : Int} (h : -0x80000000 ≤ x.toInt + n) :
    (x.plus n).toInt = capped (x.toInt + n) :=
  toInt_clamp_eq_capped h

end Operand

namespace RegisterRanges

open Listing Operand
open Syntax (commas)

/-! ## Texts of ranges -/

/-- The numbers from `first` to `last`. -/
def numbers (first last : Int) : List Int :=
  (List.range (last + 1 - first).toNat).map fun i : Nat => first + i

def register (n : Int) : String := "R" ++ toString n

/-- The registers from `first` to `last`. -/
def registers (first last : Int) : String := commas ((numbers first last).map register)

/-- The same, a register without a word written as the greatest word. -/
def cappedRegisters (first last : Int) : String :=
  commas ((numbers first last).map fun n => register (capped n))

/-- Where a batch of items goes: the elements from the first of batch `c` on, as many as there are
items.  A batch that is not in the instruction is left open. -/
def elements (c count : Int) : String :=
  if c ≤ 0 then "..."
  else toString (capped (50 * (c - 1) + 1)) ++ ".." ++ toString (capped (50 * (c - 1) + count))

theorem reg_eq (r : Operand) : reg r = register r.toInt := rfl

theorem cappedRegisters_eq {first last : Int} (h : last ≤ greatest) :
    cappedRegisters first last = registers first last := by
  have hcapped : ∀ n ∈ numbers first last, register (capped n) = register n := by
    intro n hn
    obtain ⟨i, hi, rfl⟩ := List.mem_map.mp hn
    have hlt := List.mem_range.mp hi
    rw [capped_of_le (by omega)]
  rw [cappedRegisters, registers, List.map_congr_left hcapped]

/-- A list of registers by first register and count. -/
theorem regs_eq {first count : Operand} (h : count.toInt ≤ maxListed) :
    regs first count = cappedRegisters first.toInt (first.toInt + count.toInt - 1) := by
  have hleast : -0x80000000 ≤ first.toInt := first.le_toInt
  have hcount : min count.toInt.toNat maxListed
      = (first.toInt + count.toInt - 1 + 1 - first.toInt).toNat := by omega
  rw [regs, run, hcount, cappedRegisters, numbers, List.map_map, List.map_map]
  congr 1
  apply List.map_congr_left
  intro i _
  simp only [Function.comp_apply]
  rw [reg_eq, toInt_plus (by omega)]

/-! ## Counts -/

theorem ne_of_toInt {x y : Operand} (h : x.toInt ≠ y.toInt) : x ≠ y := fun hxy => h (by rw [hxy])

section
variable {a last : Operand} (ha : 0 ≤ a.toInt)

include ha

/-- The last register, counted from `n` registers below the first. -/
theorem toInt_count {n : Int} (hn : 0 ≤ n) (hn' : n ≤ 2) (hlast : a.toInt ≤ last.toInt)
    (hfew : last.toInt - a.toInt ≤ maxListed) :
    (last.minus (a.plus (-n))).toInt = last.toInt - a.toInt + n := by
  have hmost : a.toInt < 2 ^ 31 := a.toInt_lt
  simp only [maxListed, Nat.cast_ofNat] at hfew
  have hbelow : (a.plus (-n)).toInt = a.toInt - n := by
    rw [toInt_plus (by omega), capped_of_le (by rw [greatest]; omega)]
    omega
  rw [minus, hbelow, toInt_clamp (by omega) (by omega)]
  omega

theorem callArgs_of_last (hlast : a.toInt ≤ last.toInt)
    (hfew : last.toInt - a.toInt ≤ maxListed) :
    callArgs a (last.minus (a.plus (-1))) = registers (a.toInt + 1) last.toInt := by
  have hmost : last.toInt < 2 ^ 31 := last.toInt_lt
  have hcount := toInt_count ha (n := 1) (by omega) (by omega) hlast hfew
  generalize last.minus (a.plus (-1)) = b at hcount ⊢
  simp only [maxListed, Nat.cast_ofNat] at hfew
  have hzero : b ≠ 0 := ne_of_toInt (by rw [Int32.toInt_zero]; omega)
  rw [callArgs, if_neg hzero]
  rcases Int.lt_or_eq_of_le hlast with hlt | heq
  · -- At least one argument: the first of them is a word, since the last one is.
    have hone : b ≠ 1 := ne_of_toInt (by rw [Int32.toInt_one]; omega)
    have hfirst : (a.plus 1).toInt = a.toInt + 1 := by
      rw [toInt_plus (by omega), capped_of_le (by rw [greatest]; omega)]
    have hargs : (b.plus (-1)).toInt = last.toInt - a.toInt := by
      rw [toInt_plus (by omega), capped_of_le (by rw [greatest]; omega)]
      omega
    rw [if_neg hone, regs_eq (by rw [hargs, maxListed]; omega), hfirst, hargs,
      show a.toInt + 1 + (last.toInt - a.toInt) - 1 = last.toInt by omega,
      cappedRegisters_eq (by rw [greatest]; omega)]
  · have hone : b = 1 := Int32.toInt.inj (by rw [Int32.toInt_one]; omega)
    have hnone : (last.toInt + 1 - (a.toInt + 1)).toNat = 0 := by omega
    rw [if_pos hone, registers, numbers, hnone]
    rfl

theorem regs_of_last (hlast : a.toInt ≤ last.toInt)
    (hfew : last.toInt - a.toInt < maxListed) :
    regs a ((last.minus (a.plus (-2))).plus (-1)) = registers a.toInt last.toInt := by
  have hmost : last.toInt < 2 ^ 31 := last.toInt_lt
  have hcount := toInt_count ha (n := 2) (by omega) (by omega) hlast (by omega)
  generalize last.minus (a.plus (-2)) = c at hcount ⊢
  simp only [maxListed, Nat.cast_ofNat] at hfew
  have hresults : (c.plus (-1)).toInt = last.toInt - a.toInt + 1 := by
    rw [toInt_plus (by omega), capped_of_le (by rw [greatest]; omega)]
    omega
  rw [regs_eq (by rw [hresults, maxListed]; omega), hresults,
    show a.toInt + (last.toInt - a.toInt + 1) - 1 = last.toInt by omega,
    cappedRegisters_eq (by rw [greatest]; omega)]

end

/-- Batches begin fifty elements apart, and the last element is as far from the first as the last
register. -/
theorem batchRange_eq {b c : Operand} (hb : 0 < b.toInt) :
    batchRange b c = elements c.toInt b.toInt := by
  have hbig : b.toInt < 2 ^ 31 := b.toInt_lt
  have hc : c.toInt < 2 ^ 31 := c.toInt_lt
  rw [batchRange, elements]
  split_ifs with hopen hnone
  · rfl
  · exact absurd hnone (ne_of_toInt (by rw [Int32.toInt_zero]; omega))
  · have hbefore : (c.plus (-1)).toInt = c.toInt - 1 := by
      rw [toInt_plus (by omega), capped_of_le (by rw [greatest]; omega)]
      omega
    have hless : (b.plus (-1)).toInt = b.toInt - 1 := by
      rw [toInt_plus (by omega), capped_of_le (by rw [greatest]; omega)]
      omega
    have hskipped : (clamp ((c.plus (-1)).toInt * itemsPerBatch)).toInt
        = capped (50 * (c.toInt - 1)) := by
      rw [hbefore, itemsPerBatch, toInt_clamp_eq_capped (by omega), Int.mul_comm]
    generalize clamp ((c.plus (-1)).toInt * itemsPerBatch) = skipped at hskipped ⊢
    -- A word is capped once only: what is added to the greatest word is lost.
    have hfirst : (skipped.plus 1).toInt = capped (50 * (c.toInt - 1) + 1) := by
      rw [toInt_plus (by rw [hskipped, capped, greatest]; omega), hskipped]
      simp only [capped, greatest]
      omega
    have hlast : ((skipped.plus 1).plus (b.plus (-1)).toInt).toInt
        = capped (50 * (c.toInt - 1) + b.toInt) := by
      rw [toInt_plus (by rw [hfirst, hless, capped, greatest]; omega), hfirst, hless]
      simp only [capped, greatest]
      omega
    simp only [int, hfirst, hlast]

/-! ## The main theorem -/

/-- Whether B is the register of the last argument. -/
def keepsArgument : Rule → Bool
  | .countB | .countBC => true
  | _ => false

/-- Whether C is the register of the last result. -/
def keepsResult : Rule → Bool
  | .countC | .countBC => true
  | _ => false

/-- These rules leave A alone and turn the last register into a count. -/
theorem operands_of_keeps {rule : Rule} (h : keepsArgument rule = true ∨ keepsResult rule = true)
    (i : Instruction) :
    (rule.apply i).a = i.a ∧
      (keepsArgument rule = true → (rule.apply i).b = i.b.minus (i.a.plus (-1))) ∧
      (keepsResult rule = true → (rule.apply i).c = i.c.minus (i.a.plus (-2))) := by
  cases rule
  case countB | countC | countBC => simp [Rule.apply, keepsArgument, keepsResult]
  all_goals simp [keepsArgument, keepsResult] at h

theorem note_of_opcode {j : Instruction} {op : Opcode} (h : j.opcode = some op) (p : Prototype) :
    note p j = some (noteFor p op j) := by
  rw [note, h, Option.map_some]

section
variable {rule : Rule} (p : Prototype) (i : Instruction) (ha : 0 ≤ i.a.toInt)

include ha

theorem note_of_call (hrule : keepsArgument rule = true ∨ keepsResult rule = true) :
    ∃ results arguments,
      noteFor p .call (rule.apply i)
          = results ++ register i.a.toInt ++ "(" ++ arguments ++ ")" ∧
        (keepsArgument rule = true → i.a.toInt ≤ i.b.toInt →
          i.b.toInt - i.a.toInt ≤ maxListed →
          arguments = registers (i.a.toInt + 1) i.b.toInt) ∧
        (keepsResult rule = true → i.a.toInt ≤ i.c.toInt →
          i.c.toInt - i.a.toInt < maxListed →
          results = registers i.a.toInt i.c.toInt ++ " = ") := by
  obtain ⟨hfirst, harguments, hresults⟩ := operands_of_keeps hrule i
  generalize rule.apply i = j at hfirst harguments hresults ⊢
  refine ⟨if j.c = 0 then reg j.a ++ "->top = " else if j.c = 1 then ""
      else regs j.a (j.c.plus (-1)) ++ " = ", callArgs j.a j.b, ?_, ?_, ?_⟩
  · rw [← hfirst]
    rfl
  · intro hkeeps hlast hfew
    rw [hfirst, harguments hkeeps]
    exact callArgs_of_last ha hlast hfew
  · intro hkeeps hlast hfew
    have hcount := toInt_count ha (n := 2) (by omega) (by omega) hlast (by omega)
    have hzero : j.c ≠ 0 := ne_of_toInt (by rw [hresults hkeeps, hcount, Int32.toInt_zero]; omega)
    have hone : j.c ≠ 1 := ne_of_toInt (by rw [hresults hkeeps, hcount, Int32.toInt_one]; omega)
    rw [if_neg hzero, if_neg hone, hfirst, hresults hkeeps, regs_of_last ha hlast hfew]

theorem note_of_tailCall (hrule : keepsArgument rule = true) (hlast : i.a.toInt ≤ i.b.toInt)
    (hfew : i.b.toInt - i.a.toInt ≤ maxListed) :
    noteFor p .tailCall (rule.apply i)
      = "return " ++ register i.a.toInt ++ "(" ++ registers (i.a.toInt + 1) i.b.toInt ++ ")" := by
  obtain ⟨hfirst, harguments, -⟩ := operands_of_keeps (.inl hrule) i
  rw [← callArgs_of_last ha hlast hfew, ← harguments hrule, ← hfirst]
  rfl

omit ha in
theorem note_of_ret (hvalues : 0 ≤ i.b.toInt) (hfew : i.b.toInt < maxListed) :
    noteFor p .ret (Rule.returnCount.apply i)
      = "return " ++ cappedRegisters i.a.toInt (i.a.toInt + i.b.toInt) := by
  simp only [maxListed, Nat.cast_ofNat] at hfew
  have hcount : (i.b.plus 2).toInt = i.b.toInt + 2 := by
    rw [toInt_plus (by omega), capped_of_le (by rw [greatest]; omega)]
  have hless : ((i.b.plus 2).plus (-1)).toInt = i.b.toInt + 1 := by
    rw [toInt_plus (by omega), hcount, capped_of_le (by rw [greatest]; omega)]
    omega
  have hzero : i.b.plus 2 ≠ 0 := ne_of_toInt (by rw [hcount, Int32.toInt_zero]; omega)
  have hone : i.b.plus 2 ≠ 1 := ne_of_toInt (by rw [hcount, Int32.toInt_one]; omega)
  calc noteFor p .ret (Rule.returnCount.apply i)
      = if i.b.plus 2 = 0 then "return " ++ reg i.a ++ "->top"
        else if i.b.plus 2 = 1 then "return"
        else "return " ++ regs i.a ((i.b.plus 2).plus (-1)) := rfl
    _ = "return " ++ regs i.a ((i.b.plus 2).plus (-1)) := by rw [if_neg hzero, if_neg hone]
    _ = "return " ++ cappedRegisters i.a.toInt (i.a.toInt + i.b.toInt) := by
        rw [regs_eq (by rw [hless, maxListed]; omega), hless,
          show i.a.toInt + (i.b.toInt + 1) - 1 = i.a.toInt + i.b.toInt by omega]

theorem note_of_setList (hitems : i.a.toInt < i.b.toInt) :
    noteFor p .setList (Rule.listCount.apply i)
      = register i.a.toInt ++ "[" ++ elements i.c.toInt (i.b.toInt - i.a.toInt) ++ "] = "
        ++ (register (i.a.toInt + 1) ++ "->" ++ register i.b.toInt) := by
  have hmost : i.b.toInt < 2 ^ 31 := i.b.toInt_lt
  have hcount : (i.b.minus i.a).toInt = i.b.toInt - i.a.toInt :=
    toInt_clamp (by omega) (by omega)
  have hzero : i.b.minus i.a ≠ 0 := ne_of_toInt (by rw [hcount, Int32.toInt_zero]; omega)
  have hfirst : (i.a.plus 1).toInt = i.a.toInt + 1 := by
    rw [toInt_plus (by omega), capped_of_le (by rw [greatest]; omega)]
  have hlast : (i.a.plus (i.b.minus i.a).toInt).toInt = i.b.toInt := by
    rw [hcount, toInt_plus (by omega), capped_of_le (by rw [greatest]; omega)]
    omega
  have hrange : openRange i.a (i.b.minus i.a)
      = register (i.a.toInt + 1) ++ "->" ++ register i.b.toInt := by
    rw [openRange, if_neg hzero, reg_eq, reg_eq, hfirst, hlast]
  calc noteFor p .setList (Rule.listCount.apply i)
      = reg i.a ++ "[" ++ batchRange (i.b.minus i.a) i.c ++ "] = "
        ++ openRange i.a (i.b.minus i.a) := rfl
    _ = _ := by rw [hrange, batchRange_eq (by omega), hcount, reg_eq]

end

/-- A call that keeps its last argument, or its last result, is written with these registers after
recovery, and a return and the filling of a table likewise. -/
theorem note_of_counts {catalog : Catalog} {fp : String} {sh : Shape}
    (hsh : catalog.lookup fp = some sh) (p : Prototype) (i : Instruction) (ha : 0 ≤ i.a.toInt) :
    ∃ j, catalog.resolve fp i = some j ∧
      (sh.op = .call → keepsArgument sh.rule = true ∨ keepsResult sh.rule = true →
        ∃ results arguments,
          note p j = some (results ++ register i.a.toInt ++ "(" ++ arguments ++ ")") ∧
          (keepsArgument sh.rule = true → i.a.toInt ≤ i.b.toInt →
            i.b.toInt - i.a.toInt ≤ maxListed →
            arguments = registers (i.a.toInt + 1) i.b.toInt) ∧
          (keepsResult sh.rule = true → i.a.toInt ≤ i.c.toInt →
            i.c.toInt - i.a.toInt < maxListed →
            results = registers i.a.toInt i.c.toInt ++ " = ")) ∧
      (sh.op = .tailCall → keepsArgument sh.rule = true → i.a.toInt ≤ i.b.toInt →
        i.b.toInt - i.a.toInt ≤ maxListed →
        note p j = some ("return " ++ register i.a.toInt ++ "("
          ++ registers (i.a.toInt + 1) i.b.toInt ++ ")")) ∧
      (sh.op = .ret → sh.rule = .returnCount → 0 ≤ i.b.toInt → i.b.toInt < maxListed →
        note p j = some ("return " ++ cappedRegisters i.a.toInt (i.a.toInt + i.b.toInt))) ∧
      (sh.op = .setList → sh.rule = .listCount → i.a.toInt < i.b.toInt →
        note p j = some (register i.a.toInt ++ "[" ++ elements i.c.toInt (i.b.toInt - i.a.toInt)
          ++ "] = " ++ (register (i.a.toInt + 1) ++ "->" ++ register i.b.toInt))) := by
  have hopcode : (sh.rule.apply { i with opcode := some sh.op }).opcode = some sh.op := by
    rw [Rule.opcode_apply]
  have hnote := note_of_opcode hopcode p
  refine ⟨sh.rule.apply { i with opcode := some sh.op }, ?_, ?_, ?_, ?_, ?_⟩
  · rw [Catalog.resolve, hsh, Option.map_some]
  · intro hop hrule
    obtain ⟨results, arguments, hcall, hkept⟩ :=
      note_of_call p { i with opcode := some sh.op } ha hrule
    refine ⟨results, arguments, ?_, hkept⟩
    rw [hnote, ← hcall, hop]
  · intro hop hrule hlast hfew
    rw [hnote, ← note_of_tailCall p { i with opcode := some sh.op } ha hrule hlast hfew, hop]
  · intro hop hrule hvalues hfew
    rw [hnote, ← note_of_ret p { i with opcode := some sh.op } hvalues hfew, hop, hrule]
  · intro hop hrule hitems
    rw [hnote, ← note_of_setList p { i with opcode := some sh.op } ha hitems, hop, hrule]

/-- A call of register 2 whose last argument is register 4 and whose last result is register 3. -/
def betweenCall : Instruction := ⟨9, none, 2, 4, 3, 0, false⟩

theorem note_of_counts_call :
    Catalog.moonSecV3.lookup "9033149114511590139015919"
        = some ⟨"9033149114511590139015919", .call, .countBC⟩ ∧
      0 ≤ betweenCall.a.toInt ∧
      ∃ j, Catalog.moonSecV3.resolve "9033149114511590139015919" betweenCall = some j ∧
        note (.empty "main") j = some "R2, R3 = R2(R3, R4)" := by
  have hsh : Catalog.moonSecV3.lookup "9033149114511590139015919"
      = some ⟨"9033149114511590139015919", .call, .countBC⟩ := by decide +kernel
  obtain ⟨j, hj, hcall, -⟩ := note_of_counts hsh (.empty "main") betweenCall (by decide)
  obtain ⟨results, arguments, hnote, harguments, hresults⟩ := hcall rfl (.inl rfl)
  refine ⟨hsh, by decide, j, hj, ?_⟩
  rw [hnote, harguments rfl (by decide) (by decide), hresults rfl (by decide) (by decide)]
  decide +kernel

/-- A return of two values from the greatest register on. -/
def lastReturn : Instruction := ⟨9, none, 0x7fffffff, 1, 0, 0, false⟩

/-- Register 0 filled from register 1 on, up to a register and at a batch. -/
def filling (last batch : Operand) : Instruction := ⟨9, none, 0, last, batch, 0, false⟩

/-- Ranges that leave the words are cut off, and a table whose batch is not in the instruction is
written without indices. -/
theorem note_of_counts_cut :
    ((Catalog.moonSecV3.resolve "902714511590" lastReturn).bind (note (.empty "main"))
        = some "return R2147483647, R2147483647" ∧
      registers lastReturn.a.toInt (lastReturn.a.toInt + lastReturn.b.toInt)
        = "R2147483647, R2147483648") ∧
    ((Catalog.moonSecV3.resolve "909113159014691" (filling 48 42949673)).bind (note (.empty "main"))
        = some "R0[2147483601..2147483647] = R1->R48" ∧
      (numbers 2147483601 2147483647).length < (numbers 1 48).length) ∧
    (Catalog.moonSecV3.resolve "909113159014691" (filling 2 0)).bind (note (.empty "main"))
      = some "R0[...] = R1->R2" := by
  refine ⟨⟨?_, ?_⟩, ⟨?_, ?_⟩, ?_⟩
  all_goals decide +kernel

end RegisterRanges

end Devirt
