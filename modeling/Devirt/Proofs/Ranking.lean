import Devirt.Proofs.Marks
import Mathlib.Data.List.Shortlex
import Mathlib.Data.Multiset.DershowitzManna
import Mathlib.Tactic

set_option autoImplicit false

/-! # Moves that come to an end

Inlining makes a text longer, copies what it reads, and leaves the declarations of the temporaries in
place.  It comes to an end all the same, because what stands for a name is read before the name is
bound.  Rank the names by the place of their first binding (`exists_ordered`): a read is replaced by
reads of lower rank, and the multiset of ranks decreases.  Folding keeps the names, and makes the
list of marks shorter or moves a number to the right.  So there is a well-founded order in which
every such move descends (`Smaller`, `descends_move`).

Names that are read before they are bound have no rank in this sense.  They are not inlined, and
remain so as long as that read stands (`Kept`). -/

namespace Devirt

namespace Ranking

/-! ## Reads before a binding -/

/-- The names that are read, in order. -/
def reads (xs : List Mark) : List String := xs.filterMap Mark.read?

/-- The names that are read before `n` is bound. -/
def readsBefore (n : String) : List Mark → List String
  | [] => []
  | x :: xs => if x = .bind n then [] else x.read?.toList ++ readsBefore n xs

theorem reads_cons (x : Mark) (xs : List Mark) : reads (x :: xs) = x.read?.toList ++ reads xs := by
  cases x <;> rfl

theorem reads_append (xs ys : List Mark) : reads (xs ++ ys) = reads xs ++ reads ys :=
  List.filterMap_append

theorem mem_reads {m : String} {xs : List Mark} : m ∈ reads xs ↔ .read m ∈ xs := by
  rw [reads, List.mem_filterMap]
  constructor
  · rintro ⟨x, hx, hm⟩
    cases x <;> simp_all [Mark.read?]
  · exact fun h => ⟨_, h, rfl⟩

theorem readsBefore_append (n : String) (xs ys : List Mark) :
    readsBefore n (xs ++ ys) =
      readsBefore n xs ++ if .bind n ∈ xs then [] else readsBefore n ys := by
  induction xs with
  | nil => simp [readsBefore]
  | cons x xs ih =>
      by_cases hx : x = .bind n
      · simp [readsBefore, hx]
      · simp [readsBefore, hx, ih, Ne.symm hx]

theorem readsBefore_of_not_mem {n : String} {xs : List Mark} (h : .bind n ∉ xs) :
    readsBefore n xs = reads xs := by
  induction xs with
  | nil => rfl
  | cons x xs ih =>
      rw [List.mem_cons, not_or] at h
      rw [readsBefore, if_neg (Ne.symm h.1), ih h.2, reads_cons]

theorem readsBefore_prefix_reads (n : String) (xs : List Mark) : readsBefore n xs <+: reads xs := by
  induction xs with
  | nil => exact List.prefix_rfl
  | cons x xs ih =>
      rw [readsBefore, reads_cons]
      split
      · exact List.nil_prefix
      · exact (List.prefix_append_right_inj _).mpr ih

/-- Only names matter. -/
theorem readsBefore_filter (n : String) (xs : List Mark) :
    readsBefore n (xs.filter Mark.isName) = readsBefore n xs := by
  induction xs with
  | nil => rfl
  | cons x xs ih => cases x <;> simp [List.filter_cons, readsBefore, Mark.isName, Mark.read?, ih]

theorem reads_filter (xs : List Mark) : reads (xs.filter Mark.isName) = reads xs := by
  induction xs with
  | nil => rfl
  | cons x xs ih => cases x <;> simp [List.filter_cons, reads_cons, Mark.isName, Mark.read?, ih]

/-! ## Ranks -/

/-- The name is read before it is bound. -/
def Early (xs : List Mark) (n : String) : Prop := n ∈ readsBefore n xs

/-- Whatever is read before the name is bound has a lower rank. -/
def Below (ρ : String → Nat) (xs : List Mark) (n : String) : Prop :=
  ∀ m ∈ readsBefore n xs, ρ m < ρ n

def Ordered (ρ : String → Nat) (xs : List Mark) : Prop := ∀ n, Early xs n ∨ Below ρ xs n

/-- The names of a text can be ranked by how much is read before they are bound. -/
theorem exists_ordered (xs : List Mark) : ∃ ρ, Ordered ρ xs := by
  let ρ : String → Nat := fun n =>
    if n ∈ readsBefore n xs then 0 else (readsBefore n xs).length + 1
  refine ⟨ρ, fun n => ?_⟩
  by_cases hn : n ∈ readsBefore n xs
  · exact .inl hn
  · refine .inr fun m hm => ?_
    have hρn : ρ n = (readsBefore n xs).length + 1 := if_neg hn
    by_cases hm' : m ∈ readsBefore m xs
    · have hρm : ρ m = 0 := if_pos hm'
      omega
    · have hρm : ρ m = (readsBefore m xs).length + 1 := if_neg hm'
      -- of the two beginnings of the text, the one without a read of `m` is the shorter
      by_contra hge
      have hle : (readsBefore n xs).length ≤ (readsBefore m xs).length := by omega
      have hpre := List.prefix_of_prefix_length_le (readsBefore_prefix_reads n xs)
        (readsBefore_prefix_reads m xs) hle
      exact hm' (hpre.mem hm)

/-! ## The order -/

/-- The ranks of what is read. -/
def ranks (ρ : String → Nat) (xs : List Mark) : Multiset Nat := ↑((reads xs).map ρ)

theorem ranks_append (ρ : String → Nat) (xs ys : List Mark) :
    ranks ρ (xs ++ ys) = ranks ρ xs + ranks ρ ys := by
  simp [ranks, reads_append]

/-- The ranks of what is read, and where among all marks the numbers stand. -/
def size (ρ : String → Nat) (xs : List Mark) : Multiset Nat × List Bool :=
  (ranks ρ xs, xs.map (· == .number))

/-- Fewer reads of high rank, or the same ranks and a shorter list, or a number further to the
right. -/
def Smaller (ρ : String → Nat) (ys xs : List Mark) : Prop :=
  Prod.Lex Multiset.IsDershowitzMannaLT (List.Shortlex (· < ·)) (size ρ ys) (size ρ xs)

theorem wellFounded_smaller (ρ : String → Nat) : WellFounded (Smaller ρ) :=
  InvImage.wf (size ρ) <| WellFounded.prod_lex Multiset.wellFounded_isDershowitzMannaLT
    (List.Shortlex.wf wellFounded_lt)

/-! ## Moves -/

def weight (xs : List Mark) : Nat := (xs.map Mark.weight).sum

theorem weight_append (xs ys : List Mark) : weight (xs ++ ys) = weight xs + weight ys := by
  simp [weight]

theorem weight_of_plain {xs : List Mark} (h : ∀ x ∈ xs, x.isPlain = true) : weight xs = 0 := by
  rw [weight, List.sum_eq_zero_iff]
  intro w hw
  obtain ⟨x, hx, rfl⟩ := List.mem_map.mp hw
  have := h x hx
  cases x <;> first | rfl | contradiction

/-- The same names, and a shorter list or a number further to the right. -/
structure Folds (xs ys : List Mark) : Prop where
  names : ys.filter Mark.isName = xs.filter Mark.isName
  weight_eq : weight ys = weight xs
  shorter : List.Shortlex (· < ·) (ys.map (· == .number)) (xs.map (· == .number))

/-- The marks `vs` may stand for a read of `n`: in the text `xs₀` no read of `n` comes before its
binding, but all reads of `vs` do. -/
structure Admits (xs₀ : List Mark) (n : String) (vs : List Mark) : Prop where
  late : ¬ Early xs₀ n
  isPlain : ∀ x ∈ vs, x.isPlain = true
  supplied : ∀ m, .read m ∈ vs → m ∈ readsBefore n xs₀

/-- What a replacement does that makes no text lighter; `xs₀` is the text that was analysed. -/
inductive Move (xs₀ : List Mark) : List Mark → List Mark → Prop where
  | fold {xs ys : List Mark} : Folds xs ys → Move xs₀ xs ys
  | inline (pre post : List Mark) {n : String} {vs : List Mark} : Admits xs₀ n vs →
      Move xs₀ (pre ++ .read n :: post) (pre ++ vs ++ post)

theorem shortlex_append {xs ys : List Bool} (h : List.Shortlex (· < ·) xs ys) (zs : List Bool) :
    List.Shortlex (· < ·) (xs ++ zs) (ys ++ zs) := by
  rw [List.shortlex_def] at h
  rcases h with h | ⟨hlength, h⟩
  · exact .of_length_lt (by simpa using h)
  · refine .of_lex (by simp [hlength]) ?_
    induction h with
    | nil => simp at hlength
    | cons _ ih => exact .cons (ih (by simpa using hlength))
    | rel h => exact .rel h

theorem closed_folds : Closed Folds where
  left zs _ _ h :=
    ⟨by simp [h.names], by simp [weight_append, h.weight_eq], by
      rw [List.map_append, List.map_append]
      exact h.shorter.append_left _⟩
  right zs _ _ h :=
    ⟨by simp [h.names], by simp [weight_append, h.weight_eq], by
      rw [List.map_append, List.map_append]
      exact shortlex_append h.shorter _⟩

theorem closed_move (xs₀ : List Mark) : Closed (Move xs₀) where
  left zs xs ys h := by
    cases h with
    | fold h => exact .fold (closed_folds.left zs h)
    | inline pre post h => simpa using Move.inline (zs ++ pre) post h
  right zs xs ys h := by
    cases h with
    | fold h => exact .fold (closed_folds.right zs h)
    | inline pre post h => simpa using Move.inline pre (post ++ zs) h

theorem weight_move {xs₀ xs ys : List Mark} (h : Move xs₀ xs ys) : weight ys = weight xs := by
  cases h with
  | fold h => exact h.weight_eq
  | @inline pre post n vs h =>
      have hread : weight (.read n :: post) = weight post := Nat.zero_add _
      rw [weight_append, weight_append, weight_append, weight_of_plain h.isPlain, hread]
      rfl

/-! ## Moves descend -/

section

variable {ρ : String → Nat} {xs₀ xs ys : List Mark}

/-- All through the moves: a name is bound after everything of a rank as high as its own, or it was
read too early from the beginning and still is. -/
def Kept (ρ : String → Nat) (xs₀ xs : List Mark) : Prop :=
  ∀ n, Below ρ xs n ∨ Early xs₀ n ∧ Early xs n

theorem kept_self (h : Ordered ρ xs₀) : Kept ρ xs₀ xs₀ := fun n =>
  (h n).elim (fun h => .inr ⟨h, h⟩) .inl

theorem ordered_of_kept (h : Kept ρ xs₀ xs) : Ordered ρ xs := fun n =>
  (h n).elim .inr fun h => .inl h.2

theorem descends_fold (hkept : Kept ρ xs₀ xs) (h : Folds xs ys) :
    Kept ρ xs₀ ys ∧ Smaller ρ ys xs := by
  have hbefore : ∀ n, readsBefore n ys = readsBefore n xs := fun n => by
    rw [← readsBefore_filter, h.names, readsBefore_filter]
  have hreads : reads ys = reads xs := by rw [← reads_filter, h.names, reads_filter]
  constructor
  · intro n
    rw [Below, Early, Early, hbefore]
    exact hkept n
  · rw [Smaller, size, size, ranks, ranks, hreads]
    exact .right _ h.shorter

theorem readsBefore_inlined (pre post : List Mark) {vs : List Mark}
    (hvs : ∀ x ∈ vs, x.isPlain = true) (k : String) :
    readsBefore k (pre ++ vs ++ post) =
      readsBefore k pre ++ if .bind k ∈ pre then [] else reads vs ++ readsBefore k post := by
  have hk : .bind k ∉ vs := fun hc => by
    have := hvs _ hc
    contradiction
  rw [List.append_assoc, readsBefore_append, readsBefore_append, if_neg hk,
    readsBefore_of_not_mem hk]

theorem readsBefore_read (pre post : List Mark) (n k : String) :
    readsBefore k (pre ++ .read n :: post) =
      readsBefore k pre ++ if .bind k ∈ pre then [] else n :: readsBefore k post := by
  have hread : ∀ x ∈ [Mark.read n], x.isPlain = true := by simp [Mark.isPlain]
  simpa [reads, Mark.read?] using readsBefore_inlined pre post hread k

section

variable {pre post vs : List Mark} {n : String} (hord : Ordered ρ xs₀) (h : Admits xs₀ n vs)

include hord h

/-- What is read instead of a name has a lower rank. -/
theorem lower_of_admits {m : String} (hm : m ∈ reads vs) : ρ m < ρ n := by
  rcases hord n with hn | hn
  · exact absurd hn h.late
  · exact hn m (h.supplied m (mem_reads.mp hm))

theorem kept_inline (hkept : Kept ρ xs₀ (pre ++ .read n :: post)) :
    Kept ρ xs₀ (pre ++ vs ++ post) := by
  have hnew := readsBefore_inlined pre post h.isPlain
  intro k
  rcases hkept k with hk | ⟨hk₀, hk⟩
  · -- what is new before the binding of `k` has a lower rank than `n`, which was there before
    refine .inl fun m hm => ?_
    rw [Below, readsBefore_read] at hk
    rw [hnew] at hm
    split at hm
    · rename_i hbind
      rw [if_pos hbind] at hk
      exact hk m hm
    · rename_i hbind
      rw [if_neg hbind] at hk
      simp only [List.mem_append] at hm
      rcases hm with hm | hm | hm
      · exact hk m (by simp [hm])
      · have hn := hk n (by simp)
        have := lower_of_admits hord h hm
        omega
      · exact hk m (by simp [hm])
  · -- a name that is read too early is not `n`
    refine .inr ⟨hk₀, ?_⟩
    have hne : k ≠ n := fun hc => h.late (hc ▸ hk₀)
    rw [Early, readsBefore_read] at hk
    rw [Early, hnew]
    split
    · rename_i hbind
      rwa [if_pos hbind] at hk
    · rename_i hbind
      rw [if_neg hbind] at hk
      simp only [List.mem_append, List.mem_cons, hne, false_or] at hk
      simp only [List.mem_append]
      tauto

theorem smaller_inline : Smaller ρ (pre ++ vs ++ post) (pre ++ .read n :: post) := by
  have hread : ranks ρ (.read n :: post) = {ρ n} + ranks ρ post := rfl
  refine .left _ _ ⟨ranks ρ pre + ranks ρ post, ranks ρ vs, {ρ n}, by simp, ?_, ?_, ?_⟩
  · rw [ranks_append, ranks_append, add_right_comm]
  · rw [ranks_append, hread, add_right_comm, add_assoc]
  · intro r hr
    obtain ⟨m, hm, rfl⟩ := List.mem_map.mp (Multiset.mem_coe.mp hr)
    exact ⟨ρ n, by simp, lower_of_admits hord h hm⟩

end

/-- A move descends in the order of any ranking of the text that was analysed. -/
theorem descends_move (hord : Ordered ρ xs₀) (hkept : Kept ρ xs₀ xs) (h : Move xs₀ xs ys) :
    Kept ρ xs₀ ys ∧ Smaller ρ ys xs := by
  cases h with
  | fold h => exact descends_fold hkept h
  | inline pre post h => exact ⟨kept_inline hord h hkept, smaller_inline hord h⟩

end

end Ranking

end Devirt
