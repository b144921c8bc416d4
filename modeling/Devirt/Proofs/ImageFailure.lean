import Devirt.Binary.Image
import Devirt.Proofs.RecoveryReport
import Devirt.Proofs.WordFields
import Mathlib.Tactic

set_option autoImplicit false

/-! # Trees that have no image

A tree has an image if each of its instructions can be packed, and else it fails with the error of the
first one that cannot (`image_blames_first`).  For a recovered tree the report tells whether an
unresolved opcode can be the reason (`image_of_report`). -/

namespace Devirt

/-! ## Errors -/

/-- The error of a computation that fails. -/
def errorOf {ε α : Type} : Except ε α → Option ε
  | .error e => some e
  | .ok _ => none

section
variable {ε α β γ : Type}

theorem errorOf_eq_some {x : Except ε α} {e : ε} : errorOf x = some e ↔ x = .error e := by
  cases x <;> simp [errorOf]

theorem errorOf_eq_none {x : Except ε α} : errorOf x = none ↔ ∃ a, x = .ok a := by
  cases x <;> simp [errorOf]

/-- Of two computations the first that fails counts. -/
theorem errorOf_pair (x : Except ε α) (y : Except ε β) (f : α → β → γ) :
    errorOf (do let a ← x; let b ← y; return f a b) = (errorOf x).or (errorOf y) := by
  cases x <;> cases y <;> rfl

theorem errorOf_map (x : Except ε α) (f : α → β) :
    errorOf (do let a ← x; return f a) = errorOf x := by
  cases x <;> rfl

end

/-! ## The first instruction that cannot be packed -/

/-- Why the instruction of a site cannot be packed. -/
def Site.failure (s : Site) : Option PackError :=
  errorOf (Binary.pack s.function s.index s.instruction)

namespace Binary

theorem errorOf_words (function : String) (is : List Instruction) (k : Nat) :
    errorOf (words function k is)
      = (is.mapIdx fun n i => (⟨function, k + n, i⟩ : Site)).findSome? Site.failure := by
  induction is generalizing k with
  | nil => rfl
  | cons i is ih =>
      have hindex : ∀ n, k + 1 + n = k + (n + 1) := fun n => by omega
      rw [words, errorOf_pair, ih, List.mapIdx_cons, List.findSome?_cons]
      simp only [hindex, Nat.add_zero]
      cases h : Site.failure ⟨function, k, i⟩ with
      | some e => rw [show errorOf (pack function k i) = some e from h, Option.some_or]
      | none => rw [show errorOf (pack function k i) = none from h, Option.none_or]

mutual

theorem errorOf_prototype (p : Prototype) (name : Option String) :
    errorOf (prototype name p) = p.sites.findSome? Site.failure := by
  obtain ⟨h, is, ks, ps⟩ := p
  rw [prototype, errorOf_pair, errorOf_words, errorOf_prototypes ps, Prototype.sites,
    List.findSome?_append]
  simp only [Nat.zero_add]

theorem errorOf_prototypes (ps : List Prototype) :
    errorOf (prototypes ps) = (Prototype.sitesAll ps).findSome? Site.failure := by
  cases ps with
  | nil => rfl
  | cons p ps =>
      rw [prototypes, errorOf_pair, errorOf_prototype p none, errorOf_prototypes ps,
        Prototype.sitesAll, List.findSome?_append]

end

end Binary

/-- A tree fails with the error of the first instruction that cannot be packed. -/
theorem errorOf_image (root : Prototype) :
    errorOf root.image = root.sites.findSome? Site.failure := by
  rw [Prototype.image, errorOf_map, Binary.errorOf_prototype]

theorem exists_failure {root : Prototype} {e : PackError} (h : root.image = .error e) :
    ∃ s ∈ root.sites, s.failure = some e := by
  apply List.exists_of_findSome?_eq_some
  rw [← errorOf_image]
  exact errorOf_eq_some.mpr h

theorem failure_eq_none {root : Prototype} {bytes : List UInt8} (h : root.image = .ok bytes) :
    ∀ s ∈ root.sites, s.failure = none := by
  rw [← List.findSome?_eq_none_iff, ← errorOf_image]
  exact errorOf_eq_none.mpr ⟨bytes, h⟩

/-! ## The place of a failure -/

namespace PackError

/-- The function that the error is in. -/
def function : PackError → String
  | unresolved f _ _ => f
  | outOfRange f _ _ _ => f

/-- The index that the error is at. -/
def index : PackError → Nat
  | unresolved _ k _ => k
  | outOfRange _ k _ _ => k

end PackError

theorem Binary.place_of_pack {function : String} {index : Nat} {i : Instruction} {e : PackError}
    (h : pack function index i = .error e) : e.function = function ∧ e.index = index := by
  obtain ⟨-, ⟨-, rfl⟩ | ⟨op, o, -, -, rfl⟩⟩ := error_of_pack h
  · exact ⟨rfl, rfl⟩
  · exact ⟨rfl, rfl⟩

/-- An error names the function and the index of an instruction that fails with it. -/
theorem exists_place_of_error {root : Prototype} {e : PackError} (h : root.image = .error e) :
    ∃ path p i, root.descend? path = some p ∧ p.name = e.function ∧
      p.instructions[e.index]? = some i ∧ Binary.pack p.name e.index i = .error e := by
  obtain ⟨s, hs, hfail⟩ := exists_failure h
  have hpack : Binary.pack s.function s.index s.instruction = .error e := errorOf_eq_some.mp hfail
  obtain ⟨hfunction, hindex⟩ := Binary.place_of_pack hpack
  obtain ⟨path, p, hp, hname, hi⟩ := Prototype.mem_sites.mp hs
  rw [← hname, ← hindex] at hpack
  rw [← hindex] at hi
  exact ⟨path, p, s.instruction, hp, hname.trans hfunction.symm, hi, hpack⟩

/-! ## Changes that an image does not show -/

namespace Binary

/-- The change of an instruction leaves its word as it is. -/
def KeepsWords (f : Nat → Instruction → Instruction) : Prop :=
  ∀ function k i, pack function k (f k i) = pack function k i

variable {f : Nat → Instruction → Instruction}

theorem words_mapIdx (hf : KeepsWords f) (function : String) (k : Nat) (is : List Instruction) :
    words function k (is.mapIdx fun n i => f (k + n) i) = words function k is := by
  induction is generalizing k with
  | nil => rfl
  | cons i is ih =>
      have hindex : (fun n i => f (k + (n + 1)) i) = fun n i => f (k + 1 + n) i := by
        funext n i
        rw [Nat.add_assoc, Nat.add_comm 1]
      rw [List.mapIdx_cons, words, words, hindex, ih (k + 1), Nat.add_zero, hf]

mutual

theorem prototype_mapCode (hf : KeepsWords f) (p : Prototype) (name : Option String) :
    prototype name (p.mapCode f) = prototype name p := by
  obtain ⟨h, is, ks, ps⟩ := p
  have hwords : words h.name 0 (is.mapIdx f) = words h.name 0 is := by
    have hzero := words_mapIdx hf h.name 0 is
    simpa only [Nat.zero_add] using hzero
  have hlength : (Prototype.mapCodeAll f ps).length = ps.length := by
    rw [Prototype.mapCodeAll_eq, List.length_map]
  rw [Prototype.mapCode, prototype, prototype, hwords, prototypes_mapCodeAll hf ps, hlength,
    List.length_mapIdx]

theorem prototypes_mapCodeAll (hf : KeepsWords f) (ps : List Prototype) :
    prototypes (Prototype.mapCodeAll f ps) = prototypes ps := by
  cases ps with
  | nil => rfl
  | cons p ps =>
      rw [Prototype.mapCodeAll, prototypes, prototypes, prototype_mapCode hf p none,
        prototypes_mapCodeAll hf ps]

end

theorem image_mapCode (hf : KeepsWords f) (root : Prototype) :
    (root.mapCode f).image = root.image := by
  have hname : (root.mapCode f).name = root.name := by
    rw [Prototype.name, Prototype.header_mapCode, Prototype.name]
  rw [Prototype.image, Prototype.image, prototype_mapCode hf, hname]

end Binary

/-- The tree without the `pc` of its instructions. -/
def Prototype.unnumbered (p : Prototype) : Prototype := p.mapCode fun _ i => { i with pc := 0 }

theorem image_unnumbered (root : Prototype) : root.unnumbered.image = root.image := by
  have hkeeps : Binary.KeepsWords fun _ i => { i with pc := 0 } := fun _ _ _ => rfl
  exact Binary.image_mapCode hkeeps root

/-- A tree has an image just if every instruction of every prototype can be packed.  If it has none,
then the error is that of the first instruction that cannot be packed, the instructions of a prototype
coming by index and before those of its children; it names the prototype and the index.  The `pc` of
instructions plays no part in it. -/
theorem image_blames_first (root : Prototype) :
    ((∃ bytes, root.image = .ok bytes) ↔
        ∀ path p k i, root.descend? path = some p → p.instructions[k]? = some i →
          ∃ w, Binary.pack p.name k i = .ok w) ∧
      (∀ e, root.image = .error e ↔
        ∃ before s after, root.sites = before ++ s :: after ∧
          (∀ t ∈ before, ∃ w, Binary.pack t.function t.index t.instruction = .ok w) ∧
          Binary.pack s.function s.index s.instruction = .error e) ∧
      (∀ e, root.image = .error e →
        ∃ path p i, root.descend? path = some p ∧ p.name = e.function ∧
          p.instructions[e.index]? = some i ∧ Binary.pack p.name e.index i = .error e) ∧
      ∀ other : Prototype, other.unnumbered = root.unnumbered → other.image = root.image := by
  have hnone : ∀ s : Site, s.failure = none ↔
      ∃ w, Binary.pack s.function s.index s.instruction = .ok w := fun s => errorOf_eq_none
  refine ⟨?_, ?_, fun e => exists_place_of_error, ?_⟩
  · rw [← errorOf_eq_none, errorOf_image, List.findSome?_eq_none_iff]
    constructor
    · intro h path p k i hp hi
      exact (hnone ⟨p.name, k, i⟩).mp (h _ (Prototype.mem_sites_of_place hp hi))
    · intro h s hs
      obtain ⟨path, p, hp, hname, hi⟩ := Prototype.mem_sites.mp hs
      rw [hnone, ← hname]
      exact h path p s.index s.instruction hp hi
  · intro e
    rw [← errorOf_eq_some, errorOf_image, List.findSome?_eq_some_iff]
    constructor
    · rintro ⟨before, s, after, hsites, hfail, hbefore⟩
      exact ⟨before, s, after, hsites, fun t ht => (hnone t).mp (hbefore t ht),
        errorOf_eq_some.mp hfail⟩
    · rintro ⟨before, s, after, hsites, hbefore, hpack⟩
      exact ⟨before, s, after, hsites, errorOf_eq_some.mpr hpack,
        fun t ht => (hnone t).mpr (hbefore t ht)⟩
  · intro other h
    calc other.image = other.unnumbered.image := (image_unnumbered other).symm
      _ = root.unnumbered.image := by rw [h]
      _ = root.image := image_unnumbered root

/-! ## Reasons of a failure -/

/-- A computation that fails only because of an operand out of range. -/
def FailsByRange {α : Type} (x : Except PackError α) : Prop :=
  ∀ e, errorOf x = some e → ∃ f k o v, e = .outOfRange f k o v

namespace Binary

theorem pack_of_open {function : String} {index : Nat} {i : Instruction} (h : i.Open) :
    pack function index i = .error (.unresolved function index i.opNum) := by
  obtain ⟨hlive, hop⟩ := h
  rw [pack, if_neg (by simp [hlive]), hop]

/-- An instruction that is not open has an opcode, and then only an operand can be to blame. -/
theorem failsByRange_pack {function : String} {index : Nat} {i : Instruction} (h : ¬ i.Open) :
    FailsByRange (pack function index i) := by
  intro e he
  obtain ⟨hlive, ⟨hop, -⟩ | ⟨op, o, -, -, rfl⟩⟩ := error_of_pack (errorOf_eq_some.mp he)
  · exact absurd ⟨hlive, hop⟩ h
  · exact ⟨_, _, _, _, rfl⟩

end Binary

/-- A site is blamed for its opcode just when it is open. -/
theorem Site.failure_eq_unresolved {s : Site} {f : String} {k : Nat} {n : UInt32} :
    s.failure = some (.unresolved f k n)
      ↔ s.instruction.Open ∧ s.function = f ∧ s.index = k ∧ s.instruction.opNum = n := by
  by_cases hopen : s.instruction.Open
  · rw [failure, Binary.pack_of_open hopen]
    simp [errorOf, hopen]
  · simp only [hopen, false_and, iff_false]
    intro h
    obtain ⟨_, _, _, _, he⟩ := Binary.failsByRange_pack hopen _ h
    cases he

/-! ## Images of recovered trees -/

namespace Recovery

variable (catalog : Catalog) (handlers : HandlerTable)

/-- If the report is complete, then the recovered tree has an image, or an operand of it is out of
range; if not, then it has none.  An opcode that is blamed is in the report, and it stands where the
error says. -/
theorem image_of_report (root : Prototype) :
    let tree := (root.recoverWith catalog handlers).1
    let report := (root.recoverWith catalog handlers).2
    (report.isComplete = true →
        (∃ bytes, tree.image = .ok bytes) ∨ ∃ f k o v, tree.image = .error (.outOfRange f k o v)) ∧
      (report.isComplete = false → ∃ e, tree.image = .error e) ∧
      ∀ f k n, tree.image = .error (.unresolved f k n) →
        n ∈ report.unknown ∧
          ∃ path p i, tree.descend? path = some p ∧ p.name = f ∧ p.instructions[k]? = some i ∧
            i.dead = false ∧ i.opcode = none ∧ i.opNum = n := by
  intro tree report
  have hcomplete : report.isComplete = true ↔ ∀ s ∈ tree.sites, ¬ s.instruction.Open :=
    (isComplete_iff catalog handlers).trans List.forall_mem_map
  refine ⟨?_, ?_, ?_⟩
  · intro h
    cases himage : tree.image with
    | ok bytes => exact .inl ⟨bytes, rfl⟩
    | error e =>
        obtain ⟨s, hs, hfail⟩ := exists_failure himage
        obtain ⟨f, k, o, v, rfl⟩ := Binary.failsByRange_pack (hcomplete.mp h s hs) e hfail
        exact .inr ⟨f, k, o, v, rfl⟩
  · intro h
    have hopen : ¬ ∀ s ∈ tree.sites, ¬ s.instruction.Open := by
      rw [← hcomplete, h]
      simp
    push Not at hopen
    obtain ⟨s, hs, hopen⟩ := hopen
    -- The error may be of another instruction, before the open one.
    cases himage : tree.image with
    | error e => exact ⟨e, rfl⟩
    | ok bytes =>
        have hfail := Site.failure_eq_unresolved.mpr ⟨hopen, rfl, rfl, rfl⟩
        rw [failure_eq_none himage s hs] at hfail
        cases hfail
  · intro f k n himage
    obtain ⟨s, hs, hfail⟩ := exists_failure himage
    obtain ⟨hopen, rfl, rfl, rfl⟩ := Site.failure_eq_unresolved.mp hfail
    obtain ⟨path, p, hp, hname, hi⟩ := Prototype.mem_sites.mp hs
    refine ⟨(mem_unknown catalog handlers).mpr ⟨s.instruction, ?_, hopen, rfl⟩, path, p,
      s.instruction, hp, hname, hi, hopen.1, hopen.2, rfl⟩
    exact List.mem_map.mpr ⟨s, hs, rfl⟩

/-- A function whose second instruction has no handler. -/
def unhandled : Prototype :=
  .mk ⟨"main", 0, 0, 2, 0⟩ [.resolved .ret 0 1 0, ⟨42, none, 0, 0, 0, 0, false⟩] [] []

theorem image_of_report_unhandled :
    let opened := unhandled.recoverWith .moonSecV3 .empty
    let closed := (Prototype.empty "main").recoverWith .moonSecV3 .empty
    (opened.2.isComplete = false ∧ (∃ e, opened.1.image = .error e) ∧
        opened.1.image = .error (.unresolved "main" 1 42) ∧ 42 ∈ opened.2.unknown) ∧
      closed.2.isComplete = true ∧
      ((∃ bytes, closed.1.image = .ok bytes) ∨
        ∃ f k o v, closed.1.image = .error (.outOfRange f k o v)) := by
  obtain ⟨-, hopen, hblamed⟩ := image_of_report .moonSecV3 .empty unhandled
  obtain ⟨hclosed, -, -⟩ := image_of_report .moonSecV3 .empty (Prototype.empty "main")
  exact ⟨⟨rfl, hopen rfl, rfl, (hblamed "main" 1 42 rfl).1⟩, rfl, hclosed rfl⟩

end Recovery

end Devirt
