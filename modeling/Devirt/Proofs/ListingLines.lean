import Devirt.Listing
import Mathlib.Tactic

set_option autoImplicit false

/-! # The lines of a listing

A listing is read line by line: a banner, and for every prototype, parents before children, a line with
its name and parameters, one with its sizes, one for each instruction and `end`.  `toList_listing` says
that these texts (`rows`) in a row are the listing, each ended by a newline.

So the listing has these lines just if no row holds a newline itself.  Constants are quoted and numbers
have digits; what stands bare are the names of prototypes and of globals.  `splitLines_listing` says that
the listing of a tree whose prototypes are named on one line falls into its rows just if its globals are
named on one line, too. -/

namespace Devirt

namespace Text

/-! ## Lines -/

/-- The lines of a text, each ended by a newline, and what stands behind the last newline. -/
def splitLines : List Char → List (List Char) × List Char
  | [] => ([], [])
  | c :: cs =>
    if c = '\n' then ([] :: (splitLines cs).1, (splitLines cs).2)
    else
      match (splitLines cs).1 with
      | [] => ([], c :: (splitLines cs).2)
      | l :: ls => ((c :: l) :: ls, (splitLines cs).2)

/-- Texts in a row, each ended by a newline. -/
def terminated (rows : List String) : List Char := rows.flatMap fun row => row.toList ++ ['\n']

theorem terminated_append (rows rows' : List String) :
    terminated (rows ++ rows') = terminated rows ++ terminated rows' :=
  List.flatMap_append

theorem terminated_cons (row : String) (rows : List String) :
    terminated (row :: rows) = row.toList ++ '\n' :: terminated rows := by
  simp [terminated]

theorem splitLines_newline (cs : List Char) :
    splitLines ('\n' :: cs) = ([] :: (splitLines cs).1, (splitLines cs).2) := by
  rw [splitLines, if_pos rfl]

theorem splitLines_line {l : List Char} (hl : '\n' ∉ l) (cs : List Char) :
    splitLines (l ++ '\n' :: cs) = (l :: (splitLines cs).1, (splitLines cs).2) := by
  induction l with
  | nil => exact splitLines_newline cs
  | cons c l ih =>
      obtain ⟨hc, hl⟩ := not_or.mp (List.mem_cons.not.mp hl)
      rw [List.cons_append, splitLines, if_neg (Ne.symm hc), ih hl]

theorem length_splitLines (cs : List Char) : (splitLines cs).1.length = cs.count '\n' := by
  induction cs with
  | nil => rfl
  | cons c cs ih =>
      by_cases hc : c = '\n'
      · subst hc
        rw [splitLines_newline, List.count_cons_self, List.length_cons, ih]
      · rw [List.count_cons_of_ne hc, ← ih, splitLines, if_neg hc]
        split <;> simp_all

/-- A text that stays on its line. -/
def OneLine (s : String) : Prop := '\n' ∉ s.toList

instance (s : String) : Decidable (OneLine s) := inferInstanceAs (Decidable (_ ∉ _))

/-- There is a newline for each text, besides those in the texts. -/
theorem count_terminated (rows : List String) :
    (terminated rows).count '\n' = rows.length + (rows.map fun row => row.toList.count '\n').sum := by
  induction rows with
  | nil => rfl
  | cons row rows ih =>
      rw [terminated_cons, List.count_append, List.count_cons_self, ih, List.length_cons,
        List.map_cons, List.sum_cons]
      omega

/-- Terminated texts are the lines just if none of them has a newline in it. -/
theorem splitLines_terminated_iff (rows : List String) :
    splitLines (terminated rows) = (rows.map String.toList, []) ↔ ∀ row ∈ rows, OneLine row := by
  constructor
  · intro h row hrow
    have hlines : (terminated rows).count '\n' = rows.length := by
      rw [← length_splitLines, h, List.length_map]
    have hnone : (rows.map fun row => row.toList.count '\n').sum = 0 := by
      have hcount := count_terminated rows
      omega
    exact List.count_eq_zero.mp
      (List.sum_eq_zero_iff.mp hnone _ (List.mem_map_of_mem hrow))
  · intro h
    induction rows with
    | nil => rfl
    | cons row rows ih =>
        obtain ⟨hrow, hrows⟩ := List.forall_mem_cons.mp h
        rw [terminated_cons, splitLines_line hrow, ih hrows, List.map_cons]

/-! ## Texts on one line -/

@[simp] theorem oneLine_append {s t : String} : OneLine (s ++ t) ↔ OneLine s ∧ OneLine t := by
  simp [OneLine]

@[simp] theorem oneLine_ite {c : Prop} [Decidable c] {s t : String} :
    OneLine (if c then s else t) ↔ (c → OneLine s) ∧ (¬ c → OneLine t) := by
  split_ifs with h <;> simp [h]

@[simp] theorem oneLine_repr (n : Nat) : OneLine n.repr := by
  rw [OneLine, Nat.toList_repr]
  intro h
  exact absurd (Nat.isDigit_of_mem_toDigits (by decide) (by decide) h) (by decide)

@[simp] theorem oneLine_int (n : Int) : OneLine (toString n) := by
  cases n with
  | ofNat n => exact oneLine_repr n
  | negSucc n => exact oneLine_append.mpr ⟨by decide, oneLine_repr (n + 1)⟩

/-- A repeated character other than a newline. -/
theorem oneLine_replicate {c : Char} (hc : c ≠ '\n') (n : Nat) :
    OneLine (String.ofList (List.replicate n c)) := by
  rw [OneLine, String.toList_ofList]
  exact fun h => hc (List.eq_of_mem_replicate h).symm

@[simp] theorem oneLine_alignRight {width : Nat} {s : String} :
    OneLine (alignRight width s) ↔ OneLine s := by
  rw [alignRight, oneLine_append, blanks]
  exact and_iff_right (oneLine_replicate (by decide) _)

theorem oneLine_commas {ss : List String} (h : ∀ s ∈ ss, OneLine s) :
    OneLine (Syntax.commas ss) := by
  fun_induction Syntax.commas ss with
  | case1 => decide
  | case2 s => exact h s (List.mem_singleton_self s)
  | case3 s t ts ih =>
      obtain ⟨hs, hts⟩ := List.forall_mem_cons.mp h
      simp only [oneLine_append]
      exact ⟨⟨hs, by decide⟩, ih hts⟩

theorem oneLine_intercalate {sep : String} (hsep : OneLine sep) {ss : List String}
    (h : ∀ s ∈ ss, OneLine s) : OneLine (sep.intercalate ss) := by
  induction ss with
  | nil => exact (by decide : OneLine "")
  | cons s ss ih =>
      obtain ⟨hs, hss⟩ := List.forall_mem_cons.mp h
      cases ss with
      | nil => simpa using hs
      | cons t ts =>
          rw [String.intercalate_cons_cons]
          simp only [oneLine_append]
          exact ⟨⟨hs, hsep⟩, ih hss⟩

@[simp] theorem oneLine_quote (s : String) : OneLine (quote s) := by
  rw [OneLine, toList_quote, quoteChars]
  intro h
  rcases List.mem_cons.mp h with h | h
  · exact absurd h (by decide)
  · rcases List.mem_append.mp h with h | h
    · obtain ⟨c, -, hc⟩ := List.mem_flatMap.mp h
      exact newline_notMem_escape c hc
    · exact absurd (List.mem_singleton.mp h) (by decide)

/-- A part of a text that stays on its line. -/
theorem oneLine_of_subset {s : String} (hs : OneLine s) {cs : List Char} (h : cs ⊆ s.toList) :
    OneLine (String.ofList cs) := by
  rw [OneLine, String.toList_ofList]
  exact fun hmem => hs (h hmem)

theorem oneLine_positional (d : Decimal) : OneLine d.positional := by
  have hdigits : OneLine d.text := oneLine_repr d.digits
  have hzeros : ∀ n, OneLine (Decimal.zeros n) := fun n => oneLine_replicate (by decide) n
  rw [Decimal.positional]
  split_ifs
  · simp only [oneLine_append]
    exact ⟨hdigits, hzeros _⟩
  · simp only [oneLine_append]
    exact ⟨⟨oneLine_of_subset hdigits (List.take_subset _ _), by decide⟩,
      oneLine_of_subset hdigits (List.drop_subset _ _)⟩
  · simp only [oneLine_append]
    exact ⟨⟨by decide, hzeros _⟩, hdigits⟩

@[simp] theorem oneLine_numeral (x : Double) : OneLine x.numeral := by
  rw [Double.numeral]
  split_ifs
  all_goals try decide
  all_goals
    simp only [oneLine_append]
    exact ⟨by decide, oneLine_positional _⟩

@[simp] theorem oneLine_constant (k : Constant) : OneLine k.text := by
  cases k with
  | nil => decide
  | bool b => cases b <;> decide
  | number x => exact oneLine_numeral x
  | string s => exact oneLine_quote s

end Text

open Text

/-! ## Notes on one line -/

namespace Listing

@[simp] theorem oneLine_int (x : Operand) : OneLine (int x) := Text.oneLine_int _

@[simp] theorem oneLine_reg (r : Operand) : OneLine (reg r) :=
  oneLine_append.mpr ⟨by decide, oneLine_int r⟩

@[simp] theorem oneLine_regs (first count : Operand) : OneLine (regs first count) := by
  apply oneLine_commas
  intro s hs
  obtain ⟨r, -, rfl⟩ := List.mem_map.mp hs
  exact oneLine_reg r

@[simp] theorem oneLine_concatenation (b c : Operand) : OneLine (concatenation b c) := by
  apply oneLine_intercalate (by decide)
  intro s hs
  obtain ⟨r, -, rfl⟩ := List.mem_map.mp hs
  exact oneLine_reg r

variable (p : Prototype)

@[simp] theorem oneLine_slot (v : Operand) : OneLine (slot p v) := by
  rw [slot]
  split
  · split
    · exact Text.oneLine_constant _
    · exact oneLine_append.mpr ⟨by decide, oneLine_int _⟩
  · exact oneLine_reg v

@[simp] theorem oneLine_constant (i : Operand) : OneLine (constant p i) := by
  rw [constant]
  split
  · exact Text.oneLine_constant _
  · exact oneLine_append.mpr ⟨by decide, oneLine_int i⟩

@[simp] theorem oneLine_callArgs (a b : Operand) : OneLine (callArgs a b) := by
  simp +decide [callArgs]

@[simp] theorem oneLine_openRange (a b : Operand) : OneLine (openRange a b) := by
  simp +decide [openRange]

@[simp] theorem oneLine_batchRange (b c : Operand) : OneLine (batchRange b c) := by
  simp +decide [batchRange]

/-- The name of the global that an instruction reads or writes, if it has one: it stands in the note
as it is. -/
def bareName (i : Instruction) : Option String :=
  if i.opcode = some .getGlobal ∨ i.opcode = some .setGlobal then
    (p.constant? i.b).bind Constant.string?
  else none

theorem oneLine_global (i : Operand) :
    OneLine (global p i) ↔ ∀ name ∈ (p.constant? i).bind Constant.string?, OneLine name := by
  rw [global]
  split
  · next name h => simp [h]
  · next h => simp [h]

variable {p} (hchildren : ∀ child ∈ p.children, OneLine child.name)

include hchildren

/-- A closure is shown by the name of its prototype. -/
theorem oneLine_closure (i : Instruction) : OneLine (noteFor p .closure i) := by
  simp only [noteFor, oneLine_append]
  refine ⟨⟨oneLine_reg i.a, by decide⟩, ?_⟩
  split
  · next child hchild =>
    refine hchildren child ?_
    rw [Prototype.child?, Prototype.at?] at hchild
    split_ifs at hchild
    exact List.mem_of_getElem? hchild
  · simp +decide

/-- All of a note but the name of a global stays on its line. -/
theorem oneLine_noteFor {op : Opcode} {i : Instruction} (hop : i.opcode = some op) :
    OneLine (noteFor p op i) ↔ ∀ name ∈ bareName p i, OneLine name := by
  cases op
  case closure => simp [oneLine_closure hchildren i, bareName, hop]
  all_goals simp +decide [noteFor, bareName, hop, arithmetic, comparison, oneLine_global]

omit hchildren

/-! ## Rows -/

@[simp] theorem oneLine_columns (op a b c : String) :
    OneLine (columns op a b c) ↔ OneLine op ∧ OneLine a ∧ OneLine b ∧ OneLine c := by
  simp +decide [columns, and_assoc]

theorem oneLine_mnemonic (op : Opcode) : OneLine op.mnemonic := by
  cases op <;> decide

include hchildren in
theorem oneLine_line (i : Instruction) :
    OneLine (line p i) ↔ ∀ name ∈ bareName p i, OneLine name := by
  rw [line]
  split
  · next op hop =>
    rw [← oneLine_noteFor hchildren hop]
    simp +decide [oneLine_mnemonic]
  · next hop =>
    have hnone : bareName p i = none := by simp [bareName, hop]
    rw [hnone]
    simp +decide

/-- The line of an instruction, with its index. -/
def instructionRow (p : Prototype) (index : Nat) (i : Instruction) : String :=
  "\t[" ++ alignRight 4 (toString index) ++ "]\t" ++ line p i

include hchildren in
theorem oneLine_instructionRow (index : Nat) (i : Instruction) :
    OneLine (instructionRow p index i) ↔ ∀ name ∈ bareName p i, OneLine name := by
  rw [← oneLine_line hchildren i]
  simp +decide [instructionRow]

/-- The name and the parameters of a prototype. -/
def functionRow (p : Prototype) : String :=
  "function " ++ p.name ++ "(" ++ Syntax.commas (params p.header) ++ ")"

def slotsRow (p : Prototype) : String :=
  "\t[Slots: " ++ toString p.header.maxStackSize.toNat ++ ", Upvalues: "
    ++ toString p.header.numUpvalues.toNat ++ ", Constants: " ++ toString p.constants.length ++ "]"

/-- The lines of one prototype. -/
def rows (p : Prototype) : List String :=
  functionRow p :: slotsRow p :: p.instructions.mapIdx (instructionRow p) ++ ["end"]

theorem oneLine_params (h : Header) : OneLine (Syntax.commas (params h)) := by
  apply oneLine_commas
  intro s hs
  rcases List.mem_append.mp hs with hs | hs
  · obtain ⟨i, -, rfl⟩ := List.mem_map.mp hs
    simp +decide
  · split_ifs at hs
    · rw [List.mem_singleton.mp hs]
      decide
    · cases hs

include hchildren in
/-- The rows of a prototype stay on their lines if its name and those of its children do, and if the
globals of its instructions do. -/
theorem oneLine_rows (hname : OneLine p.name) :
    (∀ row ∈ rows p, OneLine row) ↔ ∀ i ∈ p.instructions, ∀ name ∈ bareName p i, OneLine name := by
  have hfunction : OneLine (functionRow p) := by simp +decide [functionRow, hname, oneLine_params]
  have hslots : OneLine (slotsRow p) := by simp +decide [slotsRow]
  have hend : OneLine "end" := by decide
  simp only [rows, List.cons_append, List.forall_mem_cons, List.forall_mem_append, hfunction, hslots,
    hend, true_and, List.not_mem_nil, false_imp_iff, implies_true, and_true]
  constructor
  · intro h i hi
    obtain ⟨k, hk, rfl⟩ := List.getElem_of_mem hi
    exact (oneLine_instructionRow hchildren k _).mp (h _ (List.mem_mapIdx.mpr ⟨k, hk, rfl⟩))
  · intro h row hrow
    obtain ⟨k, hk, rfl⟩ := List.mem_mapIdx.mp hrow
    exact (oneLine_instructionRow hchildren k _).mpr (h _ (List.getElem_mem hk))

theorem length_rows (p : Prototype) : (rows p).length = 3 + p.instructions.length := by
  simp [rows]
  omega

theorem toList_lines (p : Prototype) (index : Nat) (is : List Instruction) :
    (lines p index is).toList
      = terminated (is.mapIdx fun k i => instructionRow p (index + k) i) := by
  -- The index goes along, since the rows that are left are counted from it.
  induction is generalizing index with
  | nil => rfl
  | cons i is ih =>
      rw [lines, String.toList_append, ih, List.mapIdx_cons, terminated_cons, Nat.add_zero]
      simp [instructionRow, Nat.add_assoc, Nat.add_comm 1]

theorem toList_ownLines (p : Prototype) : (ownLines p).toList = terminated (rows p) := by
  have hlines : (lines p 0 p.instructions).toList
      = terminated (p.instructions.mapIdx (instructionRow p)) := by
    rw [toList_lines]
    simp only [Nat.zero_add]
  have hfunction : ")\n".toList = ")".toList ++ ['\n'] := by decide
  have hslots : "]\n".toList = "]".toList ++ ['\n'] := by decide
  have hend : "end\n".toList = terminated ["end"] := by decide
  unfold ownLines
  simp only [rows, functionRow, slotsRow, terminated_cons, terminated_append, List.cons_append,
    String.toList_append, List.append_assoc, hlines, hfunction, hslots, hend, List.nil_append]

end Listing

/-! ## Trees -/

namespace Prototype

open Listing

mutual

/-- The prototypes of a tree, parents before children. -/
def preorder : Prototype → List Prototype
  | mk h is ks ps => mk h is ks ps :: preorderAll ps

def preorderAll : List Prototype → List Prototype
  | [] => []
  | p :: ps => preorder p ++ preorderAll ps

end

theorem mem_preorder_self (p : Prototype) : p ∈ p.preorder := by
  cases p
  exact List.mem_cons_self

theorem mem_preorderAll {p child : Prototype} {ps : List Prototype} (hchild : child ∈ ps)
    (hp : p ∈ child.preorder) : p ∈ preorderAll ps := by
  induction ps with
  | nil => cases hchild
  | cons q ps ih =>
      rw [preorderAll, List.mem_append]
      rcases List.mem_cons.mp hchild with rfl | hrest
      · exact .inl hp
      · exact .inr (ih hrest)

mutual

/-- The children of every prototype of a tree are in the tree. -/
theorem mem_preorder_of_child (root : Prototype) {p child : Prototype} (hp : p ∈ root.preorder)
    (hchild : child ∈ p.children) : child ∈ root.preorder := by
  obtain ⟨h, is, ks, ps⟩ := root
  rw [preorder] at hp ⊢
  rcases List.mem_cons.mp hp with rfl | hbelow
  · exact List.mem_cons_of_mem _ (mem_preorderAll hchild (mem_preorder_self child))
  · exact List.mem_cons_of_mem _ (mem_preorderAll_of_child ps hbelow hchild)

theorem mem_preorderAll_of_child (ps : List Prototype) {p child : Prototype}
    (hp : p ∈ preorderAll ps) (hchild : child ∈ p.children) : child ∈ preorderAll ps := by
  cases ps with
  | nil => cases hp
  | cons q ps =>
      rw [preorderAll, List.mem_append] at hp ⊢
      rcases hp with hq | hrest
      · exact .inl (mem_preorder_of_child q hq hchild)
      · exact .inr (mem_preorderAll_of_child ps hrest hchild)

end

mutual

theorem toList_tree (p : Prototype) :
    (tree p).toList = terminated (p.preorder.flatMap rows) := by
  obtain ⟨h, is, ks, ps⟩ := p
  rw [tree, String.toList_append, toList_ownLines, toList_trees ps, preorder, List.flatMap_cons,
    terminated_append]

theorem toList_trees (ps : List Prototype) :
    (trees ps).toList = terminated ((preorderAll ps).flatMap rows) := by
  cases ps with
  | nil => rfl
  | cons p ps =>
      rw [trees, String.toList_append, toList_tree p, toList_trees ps, preorderAll,
        List.flatMap_append, terminated_append]

end

/-- The lines of a listing. -/
def listingRows (root : Prototype) : List String := banner :: root.preorder.flatMap rows

theorem toList_listing (root : Prototype) : root.listing.toList = terminated root.listingRows := by
  have hbanner : (banner ++ "\n").toList = banner.toList ++ ['\n'] := by
    rw [String.toList_append]
    rfl
  rw [listing, String.toList_append, hbanner, toList_tree, listingRows, terminated_cons,
    List.append_assoc]
  rfl

theorem length_listingRows (root : Prototype) :
    root.listingRows.length
      = 1 + (root.preorder.map fun p => 3 + p.instructions.length).sum := by
  simp only [listingRows, List.length_cons, List.length_flatMap, length_rows]
  omega

/-- The listing of a tree whose prototypes are named on one line: a banner, three lines for each
prototype and one for each of its instructions, in this order.  It falls into these lines just if the
globals that stand in them are named on one line. -/
theorem splitLines_listing {root : Prototype} (hnames : ∀ p ∈ root.preorder, OneLine p.name) :
    root.listing.toList = terminated root.listingRows ∧
      root.listingRows.length
        = 1 + (root.preorder.map fun p => 3 + p.instructions.length).sum ∧
      (splitLines root.listing.toList = (root.listingRows.map String.toList, []) ↔
        ∀ p ∈ root.preorder, ∀ i ∈ p.instructions, ∀ name ∈ bareName p i, OneLine name) := by
  refine ⟨toList_listing root, length_listingRows root, ?_⟩
  have hbanner : OneLine banner := by decide
  have hrows : ∀ p ∈ root.preorder, (∀ row ∈ rows p, OneLine row)
      ↔ ∀ i ∈ p.instructions, ∀ name ∈ bareName p i, OneLine name := fun p hp =>
    oneLine_rows (fun child hchild => hnames child (mem_preorder_of_child root hp hchild)) (hnames p hp)
  calc splitLines root.listing.toList = (root.listingRows.map String.toList, [])
      ↔ ∀ row ∈ root.listingRows, OneLine row := by
        rw [toList_listing, splitLines_terminated_iff]
    _ ↔ ∀ p ∈ root.preorder, ∀ row ∈ rows p, OneLine row := by
        rw [listingRows, List.forall_mem_cons, and_iff_right hbanner, List.forall_mem_flatMap]
    _ ↔ ∀ p ∈ root.preorder, ∀ i ∈ p.instructions, ∀ name ∈ bareName p i, OneLine name :=
        forall₂_congr hrows

/-- A function with a closure that reads the global whose name is the first constant. -/
def globalReader (name : String) : Prototype :=
  .mk ⟨"main", 0, 0, 1, 0⟩ [.resolved .closure 0 0 0]
    [.nil] [.mk ⟨"inner", 0, 0, 1, 0⟩ [.resolved .getGlobal 0 0 0, .deadSlot] [.string name] []]

theorem oneLine_of_mem_globalReader (name : String) :
    ∀ p ∈ (globalReader name).preorder, OneLine p.name := by
  simp +decide [globalReader, preorder, preorderAll, Prototype.name, header]

theorem splitLines_listing_reader :
    (∀ p ∈ (globalReader "print").preorder, OneLine p.name) ∧
      (globalReader "print").listingRows.length = 10 ∧
      splitLines (globalReader "print").listing.toList
        = ((globalReader "print").listingRows.map String.toList, []) := by
  have hnames := oneLine_of_mem_globalReader "print"
  obtain ⟨-, hlength, hlines⟩ := splitLines_listing hnames
  refine ⟨hnames, hlength.trans rfl, hlines.mpr ?_⟩
  decide

/-- The name of a global stands as it is, with its newline: the listing has one line more. -/
theorem splitLines_listing_broken :
    (∀ p ∈ (globalReader "a\nb").preorder, OneLine p.name) ∧
      (globalReader "a\nb").listingRows.length = 10 ∧
      (splitLines (globalReader "a\nb").listing.toList).1.length = 11 := by
  refine ⟨oneLine_of_mem_globalReader "a\nb", by decide, ?_⟩
  rw [length_splitLines, toList_listing, count_terminated]
  decide +kernel

end Prototype

end Devirt
