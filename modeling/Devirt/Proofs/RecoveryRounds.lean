import Devirt.Proofs.RecoveredTree
import Mathlib.Tactic

set_option autoImplicit false

/-! # Recovery in two rounds

A tree that was recovered with one handler table can be recovered with another one.  Instructions that
have an opcode are left alone, so no operand is put right twice, and the two rounds are one round with
the merged table (`recoverWith_merge`): the second table counts where the first one gives no shape. -/

namespace Devirt

/-! ## Merged tables -/

namespace HandlerTable

/-- The table with the values of `f` at the given numbers. -/
def tabulate (f : UInt32 → Option String) (numbers : List UInt32) : HandlerTable :=
  numbers.foldr (fun n t => (f n).elim t (t.insert n)) empty

theorem get?_tabulate (f : UInt32 → Option String) (numbers : List UInt32) (n : UInt32) :
    (tabulate f numbers).get? n = if n ∈ numbers then f n else none := by
  induction numbers with
  | nil => rfl
  | cons m numbers ih =>
      have hcons : tabulate f (m :: numbers)
          = (f m).elim (tabulate f numbers) ((tabulate f numbers).insert m) := rfl
      rw [hcons]
      by_cases hm : m = n
      · subst hm
        cases hf : f m <;> simp [ih, hf]
      · cases hf : f m <;> simp [ih, hm, Ne.symm hm]

def numbers (t : HandlerTable) : List UInt32 := t.entries.map Prod.fst

theorem mem_numbers {t : HandlerTable} {n : UInt32} {fp : String} (h : t.get? n = some fp) :
    n ∈ t.numbers := by
  obtain ⟨entries⟩ := t
  rw [get?] at h
  rw [numbers]
  induction entries with
  | nil => cases h
  | cons e entries ih =>
      obtain ⟨m, fp'⟩ := e
      by_cases hm : m = n
      · simp [hm]
      · exact List.mem_cons_of_mem _ (ih (by simpa [find, hm] using h))

theorem get?_eq_none {t : HandlerTable} {n : UInt32} (h : n ∉ t.numbers) : t.get? n = none := by
  cases hfp : t.get? n with
  | none => rfl
  | some fp => exact absurd (mem_numbers hfp) h

variable (catalog : Catalog) (h₁ h₂ : HandlerTable)

/-- The first fingerprint if it is in the catalog, else the second, else the first. -/
def preferred (n : UInt32) : Option String :=
  if (Recovery.shape? catalog h₁ n).isSome then h₁.get? n else (h₂.get? n).or (h₁.get? n)

def merge : HandlerTable := tabulate (preferred catalog h₁ h₂) (h₁.numbers ++ h₂.numbers)

theorem get?_merge (n : UInt32) : (merge catalog h₁ h₂).get? n = preferred catalog h₁ h₂ n := by
  rw [merge, get?_tabulate]
  split_ifs with hn
  · rfl
  · obtain ⟨hn₁, hn₂⟩ := not_or.mp (mt List.mem_append.mpr hn)
    simp [preferred, get?_eq_none hn₁, get?_eq_none hn₂]

end HandlerTable

namespace Recovery

variable {catalog : Catalog} {h₁ h₂ h : HandlerTable}

/-- The merged table gives a shape where one of the two does, the first one before the second. -/
theorem shape?_merge (n : UInt32) :
    shape? catalog (h₁.merge catalog h₂) n
      = (shape? catalog h₁ n).or (shape? catalog h₂ n) := by
  rw [shape?, HandlerTable.get?_merge, HandlerTable.preferred]
  cases h₁n : shape? catalog h₁ n with
  | some sh => exact h₁n
  | none =>
      cases h₂n : h₂.get? n with
      | some fp => simp [shape?, h₂n]
      | none => simpa [shape?, h₂n] using h₁n

/-! ## One instruction -/

/-- What becomes of an instruction in the first round, in the second, and in the one with both. -/
inductive Rounds : Fate → Fate → Fate → Prop
  | dead : Rounds .dead .dead .dead
  | skipped : Rounds .skipped .skipped .skipped
  | first : Rounds .resolved .skipped .resolved
  | second : Rounds .unresolved .resolved .resolved
  | neither : Rounds .unresolved .unresolved .unresolved

theorem settles_again
    (hshape : ∀ n, shape? catalog h n = (shape? catalog h₁ n).or (shape? catalog h₂ n))
    {index : Nat} {i j : Instruction} {f₁ : Fate} (hfirst : Settles catalog h₁ index i f₁ j) :
    ∃ f₂ f k, Settles catalog h₂ index j f₂ k ∧ Settles catalog h index i f k ∧
      Rounds f₁ f₂ f := by
  cases hfirst with
  | dead hdead => exact ⟨_, _, _, .dead hdead, .dead hdead, .dead⟩
  | skipped hlive hop => exact ⟨_, _, _, .skipped hlive hop, .skipped hlive hop, .skipped⟩
  | resolved sh hlive hop hsh =>
      have hboth : shape? catalog h i.opNum = some sh := by rw [hshape, hsh, Option.some_or]
      exact ⟨_, _, _, .skipped (by simpa using hlive) (by simp), .resolved sh hlive hop hboth,
        .first⟩
  | unresolved hlive hop hsh =>
      have hboth : shape? catalog h i.opNum = shape? catalog h₂ i.opNum := by
        rw [hshape, hsh, Option.none_or]
      cases hsh₂ : shape? catalog h₂ i.opNum with
      | some sh =>
          exact ⟨_, _, _, .resolved sh hlive hop hsh₂, .resolved sh hlive hop (hboth.trans hsh₂),
            .second⟩
      | none =>
          exact ⟨_, _, _, .unresolved hlive hop hsh₂, .unresolved hlive hop (hboth.trans hsh₂),
            .neither⟩

theorem settle_settle
    (hshape : ∀ n, shape? catalog h n = (shape? catalog h₁ n).or (shape? catalog h₂ n))
    (index : Nat) (i : Instruction) :
    settle catalog h₂ index (settle catalog h₁ index i) = settle catalog h index i ∧
      Rounds (fate catalog h₁ i) (fate catalog h₂ (settle catalog h₁ index i))
        (fate catalog h i) := by
  obtain ⟨f₂, f, k, hsecond, honce, hrounds⟩ :=
    settles_again hshape (settles catalog h₁ index i)
  rw [hsecond.eq.1, hsecond.eq.2, honce.eq.1, honce.eq.2]
  exact ⟨rfl, hrounds⟩

/-! ## The reports -/

/-- The report of one round, `r`, is put together from those of the two rounds. -/
structure Combined (r₁ r₂ r : Report) : Prop where
  resolved : r.resolved = r₁.resolved + r₂.resolved
  skipped : r.skipped = r₁.skipped
  skipped_second : r₂.skipped = r₁.skipped + r₁.resolved
  dead_first : r.dead = r₁.dead
  dead_second : r.dead = r₂.dead
  unresolved : r.unresolved = r₂.unresolved
  unknown : r.unknown = r₂.unknown

theorem Combined.record {r₁ r₂ r : Report} (hr : Combined r₁ r₂ r) (n : UInt32)
    {f₁ f₂ f : Fate} (hf : Rounds f₁ f₂ f) :
    Combined (r₁.record n f₁) (r₂.record n f₂) (r.record n f) := by
  obtain ⟨hres, hskip, hskip₂, hdead, hdead₂, hun, hunk⟩ := hr
  cases hf <;> constructor <;> simp only [Report.record, hunk] <;> omega

/-- What holds of the reports after every instruction holds after a run over all of them. -/
theorem combined_foldl
    (hshape : ∀ n, shape? catalog h n = (shape? catalog h₁ n).or (shape? catalog h₂ n))
    (sites : List Site) {r₁ r₂ r : Report} (hr : Combined r₁ r₂ r) :
    Combined ((sites.map Site.instruction).foldl (account catalog h₁) r₁)
      (((sites.map (Site.map (settle catalog h₁))).map Site.instruction).foldl
        (account catalog h₂) r₂)
      ((sites.map Site.instruction).foldl (account catalog h) r) := by
  induction sites generalizing r₁ r₂ r with
  | nil => exact hr
  | cons s sites ih =>
      -- The second round writes up the instruction as the first one left it, under its old number.
      have hsecond : account catalog h₂ r₂ (settle catalog h₁ s.index s.instruction)
          = r₂.record s.instruction.opNum
              (fate catalog h₂ (settle catalog h₁ s.index s.instruction)) := by
        rw [account, opNum_settle]
      simp only [List.map_cons, List.foldl_cons, Site.map]
      rw [hsecond]
      exact ih (hr.record _ (settle_settle hshape s.index s.instruction).2)

/-! ## The whole tree -/

/-- A second round with any table does what one round does whose table has the shapes of both. -/
theorem recoverWith_recoverWith
    (hshape : ∀ n, shape? catalog h n = (shape? catalog h₁ n).or (shape? catalog h₂ n))
    (root : Prototype) :
    ((root.recoverWith catalog h₁).1.recoverWith catalog h₂).1 = (root.recoverWith catalog h).1 ∧
      Combined (root.recoverWith catalog h₁).2
        ((root.recoverWith catalog h₁).1.recoverWith catalog h₂).2
        (root.recoverWith catalog h).2 := by
  simp only [recoverWith_fst, recoverWith_snd]
  constructor
  · rw [Prototype.mapCode_mapCode]
    congr 1
    funext k i
    exact (settle_settle hshape k i).1
  · simp only [Prototype.code, Prototype.sites_mapCode]
    exact combined_foldl hshape root.sites (by constructor <;> rfl)

/-- Two rounds of recovery are one round with the merged table.  In particular a second round with the
table of the first one changes nothing and resolves nothing. -/
theorem recoverWith_merge (catalog : Catalog) (h₁ h₂ : HandlerTable) (root : Prototype) :
    let first := root.recoverWith catalog h₁
    let second := first.1.recoverWith catalog h₂
    let once := root.recoverWith catalog (h₁.merge catalog h₂)
    let again := first.1.recoverWith catalog h₁
    (∀ n, (h₁.merge catalog h₂).get? n
      = if ((h₁.get? n).bind catalog.lookup).isSome then h₁.get? n
        else (h₂.get? n).or (h₁.get? n)) ∧
      second.1 = once.1 ∧
      once.2.resolved = first.2.resolved + second.2.resolved ∧
      once.2.skipped = first.2.skipped ∧
      second.2.skipped = first.2.skipped + first.2.resolved ∧
      once.2.dead = first.2.dead ∧ once.2.dead = second.2.dead ∧
      once.2.unresolved = second.2.unresolved ∧ once.2.unknown = second.2.unknown ∧
      again.1 = first.1 ∧ again.2.resolved = 0 := by
  intro first second once again
  obtain ⟨htree, hres, hskip, hskip₂, hdead, hdead₂, hun, hunk⟩ :=
    recoverWith_recoverWith (h := h₁.merge catalog h₂) shape?_merge root
  -- One round with the first table has the shapes of both: it is the first round itself.
  obtain ⟨hsame, hagain⟩ : again.1 = first.1 ∧ Combined first.2 again.2 first.2 :=
    recoverWith_recoverWith (fun _ => Option.or_self.symm) root
  refine ⟨HandlerTable.get?_merge catalog h₁ h₂, htree, hres, hskip, hskip₂, hdead, hdead₂, hun,
    hunk, hsame, ?_⟩
  have hresolved : first.2.resolved = first.2.resolved + again.2.resolved := hagain.resolved
  omega

end Recovery

end Devirt
