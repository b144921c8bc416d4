import Devirt.Proofs.Sites
import Devirt.Recovery
import Mathlib.Tactic

set_option autoImplicit false

/-! # The instructions of a recovered tree

Recovery changes no place of a tree.  What becomes of an instruction (`settle`) depends on the
instruction, its index and the shape of its handler, and `Settles` says all that can become of it.  The
tree is settled instruction by instruction (`recoverWith_fst`), and the report is written up over the
instructions in their order (`recoverWith_snd`). -/

namespace Devirt

namespace Rule

/-! Putting operands right touches nothing but operands. -/

@[simp] theorem opcode_apply (rule : Rule) (i : Instruction) :
    (rule.apply i).opcode = i.opcode := by
  cases rule <;> rfl

@[simp] theorem opNum_apply (rule : Rule) (i : Instruction) :
    (rule.apply i).opNum = i.opNum := by
  cases rule <;> rfl

@[simp] theorem dead_apply (rule : Rule) (i : Instruction) : (rule.apply i).dead = i.dead := by
  cases rule <;> rfl

end Rule

namespace Catalog

/-- An instruction is resolved by a shape that the catalog has for its opcode. -/
theorem exists_shape {catalog : Catalog} {fp : String} {i j : Instruction} {op : Opcode}
    (h : catalog.resolve fp i = some j) (hop : j.opcode = some op) :
    ∃ sh ∈ catalog.shapesFor op, sh.fingerprint = fp ∧
      j = sh.rule.apply { i with opcode := some sh.op } := by
  obtain ⟨sh, hsh, rfl⟩ := Option.map_eq_some_iff.mp h
  obtain rfl : sh.op = op := by simpa using hop
  refine ⟨sh, ?_, by simpa using List.find?_some hsh, rfl⟩
  simpa [shapesFor] using List.mem_of_find?_eq_some hsh

/-- Every shape is found by its fingerprint, if no other one has it. -/
theorem lookup_fingerprint {catalog : Catalog}
    (hnodup : (catalog.shapes.map (·.fingerprint)).Nodup) {sh : Shape}
    (hsh : sh ∈ catalog.shapes) : catalog.lookup sh.fingerprint = some sh := by
  have hfound : (catalog.lookup sh.fingerprint).isSome := by
    rw [lookup, List.find?_isSome]
    exact ⟨sh, List.mem_reverse.mpr hsh, by simp⟩
  obtain ⟨other, hother⟩ := Option.isSome_iff_exists.mp hfound
  have hmem : other ∈ catalog.shapes := List.mem_reverse.mp (List.mem_of_find?_eq_some hother)
  have hsame : other.fingerprint = sh.fingerprint := by simpa using List.find?_some hother
  rw [hother, List.inj_on_of_nodup_map hnodup hmem hsh hsame]

end Catalog

namespace Recovery

/-! ## One instruction -/

/-- What can become of an instruction. -/
inductive Fate where
  | dead
  /-- It had an opcode before. -/
  | skipped
  | resolved
  | unresolved
  deriving DecidableEq

variable (catalog : Catalog) (handlers : HandlerTable)

/-- The shape of the handler of an opcode number. -/
def shape? (n : UInt32) : Option Shape := (handlers.get? n).bind catalog.lookup

variable {catalog handlers} in
theorem shape?_of_mem (hnodup : (catalog.shapes.map (·.fingerprint)).Nodup) {sh : Shape}
    (hsh : sh ∈ catalog.shapes) {n : UInt32} (hfp : handlers.get? n = some sh.fingerprint) :
    shape? catalog handlers n = some sh := by
  rw [shape?, hfp]
  exact Catalog.lookup_fingerprint hnodup hsh

def fate (i : Instruction) : Fate :=
  if i.dead then .dead
  else if i.opcode.isSome then .skipped
  else if (shape? catalog handlers i.opNum).isSome then .resolved
  else .unresolved

/-- The instruction after recovery. -/
def settle (index : Nat) (i : Instruction) : Instruction :=
  if i.dead ∨ i.opcode.isSome then i
  else
    match shape? catalog handlers i.opNum with
    | none => { i with pc := .ofNat index }
    | some sh => sh.rule.apply { i with pc := .ofNat index, opcode := some sh.op }

/-- All that recovery can make of the instruction at an index. -/
inductive Settles (index : Nat) (i : Instruction) : Fate → Instruction → Prop
  | dead (hdead : i.dead = true) : Settles index i .dead i
  | skipped (hlive : i.dead = false) (hop : i.opcode ≠ none) : Settles index i .skipped i
  | resolved (sh : Shape) (hlive : i.dead = false) (hop : i.opcode = none)
      (hsh : shape? catalog handlers i.opNum = some sh) :
      Settles index i .resolved
        (sh.rule.apply { i with pc := .ofNat index, opcode := some sh.op })
  | unresolved (hlive : i.dead = false) (hop : i.opcode = none)
      (hsh : shape? catalog handlers i.opNum = none) :
      Settles index i .unresolved { i with pc := .ofNat index }

theorem settles (index : Nat) (i : Instruction) :
    Settles catalog handlers index i (fate catalog handlers i)
      (settle catalog handlers index i) := by
  by_cases hdead : i.dead = true
  · rw [fate, settle, if_pos hdead, if_pos (.inl hdead)]
    exact .dead hdead
  · have hlive : i.dead = false := by simpa using hdead
    by_cases hop : i.opcode = none
    · have hnone : ¬ i.opcode.isSome = true := by simp [hop]
      rw [fate, settle, if_neg hdead, if_neg hnone, if_neg (not_or.mpr ⟨hdead, hnone⟩)]
      cases hsh : shape? catalog handlers i.opNum with
      | none => exact .unresolved hlive hop hsh
      | some sh => exact .resolved sh hlive hop hsh
    · have hsome : i.opcode.isSome = true := Option.isSome_iff_ne_none.mpr hop
      rw [fate, settle, if_neg hdead, if_pos hsome, if_pos (.inr hsome)]
      exact .skipped hlive hop

variable {catalog handlers} in
/-- What becomes of an instruction is determined. -/
theorem Settles.eq {index : Nat} {i j : Instruction} {f : Fate}
    (h : Settles catalog handlers index i f j) :
    fate catalog handlers i = f ∧ settle catalog handlers index i = j := by
  cases h with
  | dead hdead => simp [fate, settle, hdead]
  | skipped hlive hop => simp [fate, settle, hlive, Option.isSome_iff_ne_none.mpr hop]
  | resolved sh hlive hop hsh => simp [fate, settle, hlive, hop, hsh]
  | unresolved hlive hop hsh => simp [fate, settle, hlive, hop, hsh]

variable {catalog handlers} in
theorem Settles.opNum_eq {index : Nat} {i j : Instruction} {f : Fate}
    (h : Settles catalog handlers index i f j) : j.opNum = i.opNum := by
  cases h <;> simp

variable {catalog handlers} in
theorem Settles.dead_eq {index : Nat} {i j : Instruction} {f : Fate}
    (h : Settles catalog handlers index i f j) : j.dead = i.dead := by
  cases h <;> simp

@[simp] theorem opNum_settle (index : Nat) (i : Instruction) :
    (settle catalog handlers index i).opNum = i.opNum :=
  (settles catalog handlers index i).opNum_eq

@[simp] theorem dead_settle (index : Nat) (i : Instruction) :
    (settle catalog handlers index i).dead = i.dead :=
  (settles catalog handlers index i).dead_eq

end Recovery

/-- The report with one more instruction. -/
def Report.record (r : Report) (n : UInt32) : Recovery.Fate → Report
  | .dead => { r with dead := r.dead + 1 }
  | .skipped => { r with skipped := r.skipped + 1 }
  | .resolved => { r with resolved := r.resolved + 1 }
  | .unresolved => { r with unresolved := r.unresolved + 1, unknown := insertOnce n r.unknown }

namespace Recovery

variable (catalog : Catalog) (handlers : HandlerTable)

def account (r : Report) (i : Instruction) : Report :=
  r.record i.opNum (fate catalog handlers i)

theorem resolve_eq (index : Nat) (i : Instruction) :
    ((handlers.get? i.opNum).bind fun fp => catalog.resolve fp { i with pc := .ofNat index })
      = (shape? catalog handlers i.opNum).map
          fun sh => sh.rule.apply { i with pc := .ofNat index, opcode := some sh.op } := by
  cases h : handlers.get? i.opNum <;> simp [shape?, h, Catalog.resolve]

theorem step_eq (index : Nat) (i : Instruction) (r : Report) :
    step catalog handlers index i r
      = (settle catalog handlers index i, account catalog handlers r i) := by
  unfold step settle account fate
  by_cases hdead : i.dead = true
  · rw [if_pos hdead, if_pos hdead, if_pos (.inl hdead), Report.record]
  · by_cases hsome : i.opcode.isSome = true
    · rw [if_neg hdead, if_neg hdead, if_pos hsome, if_pos hsome, if_pos (.inr hsome),
        Report.record]
    · rw [if_neg hdead, if_neg hdead, if_neg hsome, if_neg hsome, if_neg (by simp [hdead, hsome])]
      dsimp only
      rw [resolve_eq]
      cases shape? catalog handlers i.opNum <;> rfl

/-! ## The whole tree -/

theorem steps_eq (index : Nat) (is : List Instruction) (r : Report) :
    steps catalog handlers index is r
      = (is.mapIdx fun k i => settle catalog handlers (index + k) i,
          is.foldl (account catalog handlers) r) := by
  -- The index and the report are general, since the walk passes on both.
  induction is generalizing index r with
  | nil => rfl
  | cons i is ih =>
      simp only [steps, step_eq, ih, List.mapIdx_cons, List.foldl_cons]
      simp [Nat.add_assoc, Nat.add_comm 1]

mutual

theorem prototype_eq (p : Prototype) (r : Report) :
    prototype catalog handlers p r
      = (p.mapCode (settle catalog handlers), p.code.foldl (account catalog handlers) r) := by
  obtain ⟨h, is, ks, ps⟩ := p
  simp only [prototype, steps_eq, prototypes_eq ps, Prototype.mapCode, Prototype.code_mk,
    List.foldl_append, Nat.zero_add]

theorem prototypes_eq (ps : List Prototype) (r : Report) :
    prototypes catalog handlers ps r
      = (Prototype.mapCodeAll (settle catalog handlers) ps,
          (ps.flatMap Prototype.code).foldl (account catalog handlers) r) := by
  cases ps with
  | nil => rfl
  | cons p ps =>
      simp only [prototypes, prototype_eq p, prototypes_eq ps, Prototype.mapCodeAll,
        List.flatMap_cons, List.foldl_append]

end

theorem recoverWith_fst (root : Prototype) :
    (root.recoverWith catalog handlers).1 = root.mapCode (settle catalog handlers) := by
  rw [Prototype.recoverWith, prototype_eq]

theorem recoverWith_snd (root : Prototype) :
    (root.recoverWith catalog handlers).2
      = root.code.foldl (account catalog handlers) .start := by
  rw [Prototype.recoverWith, prototype_eq]

/-! ## The instruction at a place -/

/-- The instruction at a place of the recovered tree comes from the one at that place before. -/
theorem getElem?_recover {root p q : Prototype} {path : List Nat} {k : Nat} {i j : Instruction}
    (hp : root.descend? path = some p) (hi : p.instructions[k]? = some i)
    (hq : (root.recoverWith catalog handlers).1.descend? path = some q)
    (hj : q.instructions[k]? = some j) :
    j = (step catalog handlers k i .start).1 := by
  rw [recoverWith_fst, Prototype.descend?_mapCode, hp] at hq
  obtain rfl : p.mapCode (settle catalog handlers) = q := Option.some.inj hq
  rw [Prototype.instructions_mapCode, List.getElem?_mapIdx, hi] at hj
  rw [step_eq]
  exact (Option.some.inj hj).symm

/-- Where an open instruction with a shape stands, the recovered tree has it put right by the rule of
the shape. -/
theorem exists_recovered {root p : Prototype} {path : List Nat} {k : Nat} {i : Instruction}
    {sh : Shape} (hp : root.descend? path = some p) (hi : p.instructions[k]? = some i)
    (hlive : i.dead = false) (hop : i.opcode = none)
    (hsh : shape? catalog handlers i.opNum = some sh) :
    ∃ q, (root.recoverWith catalog handlers).1.descend? path = some q ∧
      q.header = p.header ∧ q.constants = p.constants ∧
      q.instructions[k]? = some (sh.rule.apply { i with pc := .ofNat k, opcode := some sh.op }) := by
  refine ⟨p.mapCode (settle catalog handlers), ?_, by simp, by simp, ?_⟩
  · rw [recoverWith_fst, Prototype.descend?_mapCode, hp, Option.map_some]
  · rw [Prototype.instructions_mapCode, List.getElem?_mapIdx, hi, Option.map_some,
      (Settles.resolved sh hlive hop hsh).eq.2]

/-- An instruction that recovery gives an opcode was resolved by the shape of its handler. -/
theorem resolve_of_step {index : Nat} {i : Instruction} {r : Report} {op : Opcode}
    (hi : i.opcode = none) (h : (step catalog handlers index i r).1.opcode = some op) :
    ∃ fp, handlers.get? i.opNum = some fp ∧
      catalog.resolve fp { i with pc := .ofNat index }
        = some (step catalog handlers index i r).1 := by
  rw [step_eq] at h ⊢
  have hsettles := settles catalog handlers index i
  generalize fate catalog handlers i = f, settle catalog handlers index i = j at h hsettles ⊢
  cases hsettles with
  | dead => simp [hi] at h
  | skipped hlive hop => exact absurd hi hop
  | unresolved => simp [hi] at h
  | resolved sh _ _ hsh =>
      obtain ⟨fp, hfp, hlookup⟩ := Option.bind_eq_some_iff.mp hsh
      exact ⟨fp, hfp, Option.map_eq_some_iff.mpr ⟨sh, hlookup, rfl⟩⟩

/-- A live instruction without an opcode becomes what the shape of its handler says. -/
theorem step_of_resolve {index : Nat} {i found : Instruction} {r : Report} {fp : String}
    (hlive : i.dead = false) (hi : i.opcode = none) (hfp : handlers.get? i.opNum = some fp)
    (hres : catalog.resolve fp { i with pc := .ofNat index } = some found) :
    (step catalog handlers index i r).1 = found := by
  obtain ⟨sh, hlookup, rfl⟩ := Option.map_eq_some_iff.mp hres
  have hsh : shape? catalog handlers i.opNum = some sh := by rw [shape?, hfp]; exact hlookup
  rw [step_eq, settle, if_neg (by simp [hlive, hi]), hsh]

end Recovery

end Devirt
