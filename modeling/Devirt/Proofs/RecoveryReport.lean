import Devirt.Proofs.RecoveredTree
import Mathlib.Tactic

set_option autoImplicit false

/-! # What a report says

A report counts the instructions of a tree by what became of them (`count_recoverWith`).  Its unknown
opcode numbers are those of the instructions that are still open afterwards (`mem_unknown`), and it is
complete when there are none (`isComplete_iff`).  All else in the tree is as before: `Settled` lists,
for a prototype, what recovery does not touch. -/

namespace Devirt

/-- Live, and its opcode is not known. -/
def Instruction.Open (i : Instruction) : Prop := i.dead = false ∧ i.opcode = none

/-! ## Ascending lists -/

theorem mem_insertOnce {n m : UInt32} {l : List UInt32} :
    m ∈ insertOnce n l ↔ m = n ∨ m ∈ l := by
  induction l with
  | nil => simp [insertOnce]
  | cons k l ih =>
      rw [insertOnce]
      split_ifs with hk hlt
      · simp [hk]
      · simp
      · simp only [List.mem_cons, ih]
        tauto

theorem pairwise_insertOnce {n : UInt32} {l : List UInt32} (h : l.Pairwise (· < ·)) :
    (insertOnce n l).Pairwise (· < ·) := by
  induction l with
  | nil => simp [insertOnce]
  | cons k l ih =>
      obtain ⟨hk, hl⟩ := List.pairwise_cons.mp h
      rw [insertOnce]
      split_ifs with heq hlt
      · exact h
      · refine List.pairwise_cons.mpr ⟨?_, h⟩
        intro m hm
        rcases List.mem_cons.mp hm with rfl | hm
        · exact hlt
        · exact UInt32.lt_trans hlt (hk m hm)
      · have hkn : k < n := by
          rcases UInt32.lt_or_lt_of_ne heq with h' | h'
          · exact absurd h' hlt
          · exact h'
        refine List.pairwise_cons.mpr ⟨?_, ih hl⟩
        intro m hm
        rcases mem_insertOnce.mp hm with rfl | hm
        · exact hkn
        · exact hk m hm

/-! ## Counting -/

namespace Report

open Recovery (Fate)

/-- How many instructions the report says became this. -/
def count (r : Report) : Fate → Nat
  | .dead => r.dead
  | .skipped => r.skipped
  | .resolved => r.resolved
  | .unresolved => r.unresolved

theorem count_record (r : Report) (n : UInt32) (f g : Fate) :
    (r.record n f).count g = r.count g + if f = g then 1 else 0 := by
  cases f <;> cases g <;> rfl

theorem mem_unknown_record {r : Report} {n m : UInt32} {f : Fate} :
    m ∈ (r.record n f).unknown ↔ (f = .unresolved ∧ n = m) ∨ m ∈ r.unknown := by
  cases f <;> simp [record, mem_insertOnce, eq_comm]

theorem pairwise_unknown_record {r : Report} (n : UInt32) (f : Fate)
    (h : r.unknown.Pairwise (· < ·)) : (r.record n f).unknown.Pairwise (· < ·) := by
  cases f
  · exact h
  · exact h
  · exact h
  · exact pairwise_insertOnce h

end Report

namespace Recovery

variable (catalog : Catalog) (handlers : HandlerTable)

theorem count_foldl (is : List Instruction) (r : Report) (f : Fate) :
    (is.foldl (account catalog handlers) r).count f
      = r.count f + is.countP fun i => fate catalog handlers i = f := by
  induction is generalizing r with
  | nil => simp
  | cons i is ih =>
      rw [List.foldl_cons, ih, account, Report.count_record, List.countP_cons]
      simp only [decide_eq_true_eq]
      omega

theorem mem_unknown_foldl (is : List Instruction) (r : Report) (n : UInt32) :
    n ∈ (is.foldl (account catalog handlers) r).unknown
      ↔ (∃ i ∈ is, fate catalog handlers i = .unresolved ∧ i.opNum = n) ∨ n ∈ r.unknown := by
  induction is generalizing r with
  | nil => simp
  | cons i is ih =>
      rw [List.foldl_cons, ih, account, Report.mem_unknown_record, List.exists_mem_cons_iff,
        or_left_comm, or_assoc]

theorem pairwise_unknown_foldl (is : List Instruction) {r : Report}
    (h : r.unknown.Pairwise (· < ·)) :
    (is.foldl (account catalog handlers) r).unknown.Pairwise (· < ·) := by
  induction is generalizing r with
  | nil => exact h
  | cons i is ih => exact ih (Report.pairwise_unknown_record _ _ h)

/-- The counters are of the instructions of the tree. -/
theorem count_recoverWith (root : Prototype) (f : Fate) :
    (root.recoverWith catalog handlers).2.count f
      = root.code.countP fun i => fate catalog handlers i = f := by
  have hstart : Report.start.count f = 0 := by cases f <;> rfl
  rw [recoverWith_snd, count_foldl, hstart, Nat.zero_add]

/-- Every instruction has one fate. -/
theorem sum_countP (is : List Instruction) :
    (is.countP fun i => fate catalog handlers i = .resolved)
      + (is.countP fun i => fate catalog handlers i = .skipped)
      + (is.countP fun i => fate catalog handlers i = .dead)
      + (is.countP fun i => fate catalog handlers i = .unresolved) = is.length := by
  induction is with
  | nil => rfl
  | cons i is ih =>
      simp only [List.countP_cons, List.length_cons, decide_eq_true_eq]
      cases fate catalog handlers i <;> simp <;> omega

theorem pairwise_unknown (root : Prototype) :
    (root.recoverWith catalog handlers).2.unknown.Pairwise (· < ·) := by
  rw [recoverWith_snd]
  exact pairwise_unknown_foldl catalog handlers _ .nil

/-! ## Instructions that stay open -/

section
variable {catalog handlers} {index : Nat} {i j : Instruction} {f : Fate}

theorem Settles.open_iff (h : Settles catalog handlers index i f j) :
    j.Open ↔ f = .unresolved := by
  cases h with
  | dead hdead => simp [Instruction.Open, hdead]
  | skipped hlive hop => simp [Instruction.Open, hop]
  | resolved => simp [Instruction.Open]
  | unresolved hlive hop => simp [Instruction.Open, hlive, hop]

/-- Dead instructions and those that had an opcode stay as they are. -/
theorem Settles.eq_of_not_open (h : Settles catalog handlers index i f j) (hi : ¬ i.Open) :
    j = i := by
  cases h with
  | dead => rfl
  | skipped => rfl
  | resolved sh hlive hop => exact absurd ⟨hlive, hop⟩ hi
  | unresolved hlive hop => exact absurd ⟨hlive, hop⟩ hi

/-- An instruction that stays open learns its index. -/
theorem Settles.eq_of_open (h : Settles catalog handlers index i f j) (hj : j.Open) :
    j = { i with pc := .ofNat index } := by
  obtain rfl := h.open_iff.mp hj
  cases h
  rfl

end

/-- The open instructions of the recovered tree are the unresolved ones of the tree before. -/
theorem exists_open (root : Prototype) {P : UInt32 → Prop} :
    (∃ i ∈ (root.recoverWith catalog handlers).1.code, i.Open ∧ P i.opNum)
      ↔ ∃ i ∈ root.code, fate catalog handlers i = .unresolved ∧ P i.opNum := by
  simp only [recoverWith_fst, Prototype.code, Prototype.sites_mapCode, List.mem_map,
    exists_exists_and_eq_and, Site.map, (settles ..).open_iff, opNum_settle]

theorem mem_unknown {root : Prototype} {n : UInt32} :
    n ∈ (root.recoverWith catalog handlers).2.unknown
      ↔ ∃ i ∈ (root.recoverWith catalog handlers).1.code, i.Open ∧ i.opNum = n := by
  rw [exists_open catalog handlers root (P := fun m => m = n), recoverWith_snd, mem_unknown_foldl]
  simp [Report.start]

theorem isComplete_iff {root : Prototype} :
    (root.recoverWith catalog handlers).2.isComplete = true
      ↔ ∀ i ∈ (root.recoverWith catalog handlers).1.code, ¬ i.Open := by
  have hcount := count_recoverWith catalog handlers root .unresolved
  have hopen := exists_open catalog handlers root (P := fun _ => True)
  simp only [and_true] at hopen
  rw [Report.isComplete, beq_iff_eq]
  change (root.recoverWith catalog handlers).2.count .unresolved = 0 ↔ _
  rw [hcount, List.countP_eq_zero]
  simp only [decide_eq_true_eq]
  constructor
  · intro h i hi hopen'
    obtain ⟨j, hj, hfate⟩ := hopen.mp ⟨i, hi, hopen'⟩
    exact h j hj hfate
  · intro h i hi hfate
    obtain ⟨j, hj, hopen'⟩ := hopen.mpr ⟨i, hi, hfate⟩
    exact h j hj hopen'

/-! ## What is not touched -/

/-- What recovery leaves of a prototype, `q` being what it became. -/
structure Settled (p q : Prototype) : Prop where
  header : q.header = p.header
  constants : q.constants = p.constants
  children : q.children.length = p.children.length
  length : q.instructions.length = p.instructions.length
  opNum : ∀ (k : Nat) (i j : Instruction), p.instructions[k]? = some i →
    q.instructions[k]? = some j → j.opNum = i.opNum ∧ j.dead = i.dead
  /-- Dead instructions and those that had an opcode stay as they are. -/
  closed : ∀ (k : Nat) (i : Instruction), p.instructions[k]? = some i → ¬ i.Open →
    q.instructions[k]? = some i
  /-- An instruction that stays open learns its index. -/
  stillOpen : ∀ (k : Nat) (i j : Instruction), p.instructions[k]? = some i →
    q.instructions[k]? = some j → j.Open → j = { i with pc := .ofNat k }

theorem settled_mapCode (p : Prototype) : Settled p (p.mapCode (settle catalog handlers)) where
  header := by simp
  constants := by simp
  children := by simp
  length := by simp
  opNum := by
    intro k i j hi hj
    obtain rfl : settle catalog handlers k i = j := by simpa [hi] using hj
    exact ⟨opNum_settle .., dead_settle ..⟩
  closed := by
    intro k i hi hclosed
    simp [hi, (settles catalog handlers k i).eq_of_not_open hclosed]
  stillOpen := by
    intro k i j hi hj hopen
    obtain rfl : settle catalog handlers k i = j := by simpa [hi] using hj
    exact (settles ..).eq_of_open hopen

/-- A report accounts for every instruction of the tree.  Its unknown opcode numbers are, each once,
those of the instructions that are still open; it is complete if there are none.  Whatever the tree has
at some place, `Settled` says that nothing else of it changed. -/
theorem recoverWith_accounts (root : Prototype) :
    let tree := (root.recoverWith catalog handlers).1
    let report := (root.recoverWith catalog handlers).2
    report.resolved + report.skipped + report.dead + report.unresolved = root.code.length ∧
      report.unknown.Pairwise (· < ·) ∧
      (∀ n, n ∈ report.unknown ↔ ∃ i ∈ tree.code, i.Open ∧ i.opNum = n) ∧
      (report.isComplete = true ↔ ∀ i ∈ tree.code, ¬ i.Open) ∧
      ∀ path, Option.Rel Settled (root.descend? path) (tree.descend? path) := by
  intro tree report
  have hcount := count_recoverWith catalog handlers root
  refine ⟨?_, pairwise_unknown .., fun n => mem_unknown .., isComplete_iff .., ?_⟩
  · calc report.resolved + report.skipped + report.dead + report.unresolved
        = report.count .resolved + report.count .skipped + report.count .dead
            + report.count .unresolved := rfl
      _ = root.code.length := by rw [hcount, hcount, hcount, hcount, sum_countP]
  · intro path
    have htree : tree.descend? path
        = (root.descend? path).map (Prototype.mapCode (settle catalog handlers)) := by
      rw [← Prototype.descend?_mapCode, ← recoverWith_fst]
    rw [htree]
    cases root.descend? path with
    | none => exact .none
    | some p => exact .some (settled_mapCode ..)

end Recovery

end Devirt
