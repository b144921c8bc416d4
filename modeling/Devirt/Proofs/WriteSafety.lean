import Devirt.Proofs.ScopeSafety

set_option autoImplicit false

/-! # Writes to locals

Promotion turns an assignment into a `local` and so only adds to what is in scope behind it; the
removal of dead declarations takes away.  A `local` is removed when none of its names is read, and
whether they are assigned plays no part.  So an assignment to a name stays in scope of a `local`
that declares the name as long as one such `local` has a name that is still read at the end
(`assigned_simplify`), and not otherwise (`assigned_simplify_unread`).

The names read at the end were read all along (`Retains`), which is why no walk finds that `local`
dead. -/

namespace Devirt

namespace Scoping

open Temporaries

/-! ## Names that are read and assigned -/

def Occurrence.read? : Occurrence → Option String
  | read n _ => some n
  | bind .. => none

/-- The names that are read, in order. -/
def readNames (xs : List Occurrence) : List String := xs.filterMap Occurrence.read?

theorem mem_readNames {n : String} {xs : List Occurrence} :
    n ∈ readNames xs ↔ ∃ Γ, .read n Γ ∈ xs := by
  rw [readNames, List.mem_filterMap]
  constructor
  · rintro ⟨i, hi, hn⟩
    cases i with
    | read m Γ =>
        obtain rfl := Option.some.inj hn
        exact ⟨Γ, hi⟩
    | bind β values Γ => contradiction
  · rintro ⟨Γ, hi⟩
    exact ⟨_, hi, rfl⟩

/-- What is read does not depend on the scope. -/
theorem rescoping_readNames :
    Rescoping (fun _ _ => True) fun xs ys => readNames xs = readNames ys where
  same _ := trivial
  cons _ _ _ _ := trivial
  refl _ := rfl
  append h h' := by
    rw [readNames, readNames, List.filterMap_append, List.filterMap_append]
    exact congrArg₂ _ h h'
  read _ _ _ _ := rfl
  bind _ _ _ _ _ := rfl

/-- The block reads the name. -/
def IsRead (b : Block) (n : String) : Prop := ∃ Γ, .read n Γ ∈ occurrences b

/-- The block assigns the name at a place with the scope. -/
def Assigned (b : Block) (n : String) (Γ : Scope) : Prop :=
  ∃ β values, .bind β values Γ ∈ occurrences b ∧ β.isLocal = false ∧ n ∈ β.names

/-! ## The invariant -/

section

variable (b : Block) (K N : String → Prop)

/-- In scope is a `local` that declares the name together with one of the names `K`. -/
def Shields (n : String) (Γ : Scope) : Prop :=
  ∃ β ∈ Γ, β.isLocal ∧ n ∈ β.names ∧ ∃ m ∈ β.names, K m

/-- A scope shields no fewer of the names `N`. -/
def Covers (Γ Δ : Scope) : Prop := ∀ n, N n → Shields K n Γ → Shields K n Δ

/-- What is read, the block `b` reads; the names `N` are assigned behind a shield only. -/
def Behind : Occurrence → Prop
  | .read n _ => IsRead b n
  | .bind β _ Γ => β.isLocal = false → ∀ n ∈ β.names, N n → Shields K n Γ

def AllBehind (xs : List Occurrence) : Prop := ∀ i ∈ xs, Behind b K N i

/-- If the occurrences `xs` are all so, then `ys` are. -/
def KeepsBehind (xs ys : List Occurrence) : Prop := AllBehind b K N xs → AllBehind b K N ys

end

variable {options : Options} {b : Block} {K N : String → Prop} {Γ Δ : Scope}
  {xs ys : List Occurrence}

theorem Shields.cons {n : String} (h : Shields K n Γ) (β : Binding) : Shields K n (β :: Γ) := by
  obtain ⟨γ, hγ, hrest⟩ := h
  exact ⟨γ, List.mem_cons_of_mem _ hγ, hrest⟩

namespace Covers

theorem refl (Γ : Scope) : Covers K N Γ Γ := fun _ _ h => h

theorem trans {Θ : Scope} (h : Covers K N Γ Δ) (h' : Covers K N Δ Θ) : Covers K N Γ Θ :=
  fun n hn hΓ => h' n hn (h n hn hΓ)

theorem cons (h : Covers K N Γ Δ) (β : Binding) : Covers K N (β :: Γ) (β :: Δ) := by
  rintro n hn ⟨γ, hγ, hrest⟩
  rcases List.mem_cons.mp hγ with rfl | hγ
  · exact ⟨γ, List.mem_cons_self, hrest⟩
  · exact (h n hn ⟨γ, hγ, hrest⟩).cons β

end Covers

namespace KeepsBehind

theorem refl (xs : List Occurrence) : KeepsBehind b K N xs xs := fun h => h

theorem append {xs' ys' : List Occurrence} (h : KeepsBehind b K N xs ys)
    (h' : KeepsBehind b K N xs' ys') : KeepsBehind b K N (xs ++ xs') (ys ++ ys') := by
  intro hall
  obtain ⟨hxs, hxs'⟩ := List.forall_mem_append.mp hall
  exact List.forall_mem_append.mpr ⟨h hxs, h' hxs'⟩

/-- What follows is untouched when one occurrence is changed. -/
theorem cons {i j : Occurrence} (h : Behind b K N i → Behind b K N j)
    (hxs : KeepsBehind b K N xs ys) : KeepsBehind b K N (i :: xs) (j :: ys) := by
  intro hall
  obtain ⟨hi, hall⟩ := List.forall_mem_cons.mp hall
  exact List.forall_mem_cons.mpr ⟨h hi, hxs hall⟩

theorem drop (zs : List Occurrence) (h : KeepsBehind b K N xs ys) :
    KeepsBehind b K N (zs ++ xs) ys :=
  fun hall => h (List.forall_mem_append.mp hall).2

end KeepsBehind

theorem rescoping_behind (b : Block) (K N : String → Prop) :
    Rescoping (Covers K N) (KeepsBehind b K N) where
  same := .refl
  cons β _ _ h := h.cons β
  refl := .refl
  append := .append
  read _ _ _ _ := .cons id (.refl [])
  bind _ _ _ _ hΓ := .cons (fun h hlocal n hn hN => hΓ n hN (h hlocal n hn hN)) (.refl [])

/-! ## The hooks -/

/-- The value of a temporary reads names that the block reads, and binds none. -/
theorem behind_substitute {e e' : Expr} (h : (tableOf options b).substitute e = some e') :
    KeepsBehind b K N (exprOccs Γ e) (exprOccs Γ e') := by
  obtain ⟨n, v, rfl, hv, hvalue, hinline⟩ := Context.substitute_eq_some h
  have honly : OnlyReads Γ (exprOccs Γ e') :=
    onlyReads_expr Γ e' (Context.mentions_of_inlinable hinline)
  obtain ⟨-, hget, -⟩ := Context.temporary_eq_some.mp hv
  obtain ⟨d, hd⟩ := coherent_tableOf options b n v e' hget hvalue
  obtain ⟨β, values, Δ, hbind, -, hmem⟩ := value_of_declaration hget hd hvalue
  intro _ i hi
  obtain ⟨m, rfl⟩ := honly i hi
  -- the value stands in the block as well, in another scope
  have hnames : readNames (exprOccs Γ e') = readNames (exprOccs Δ e') :=
    rescoping_readNames.expr_scope trivial e'
  have hread : m ∈ readNames (exprOccs Δ e') := by
    rw [← hnames]
    exact mem_readNames.mpr ⟨Γ, hi⟩
  obtain ⟨Θ, hΘ⟩ := mem_readNames.mp hread
  exact ⟨Θ, (closed_stmts [] b).values β values Δ hbind e' hmem _ hΘ⟩

theorem behind_operands {e e' : Expr} (h : (tableOf options b).pass.onExpr e = some e') :
    KeepsBehind b K N (exprOccs Γ e) (exprOccs Γ e') := by
  have hone : ∀ {x y : Expr}, y = x ∨ (tableOf options b).substitute x = some y →
      KeepsBehind b K N (exprOccs Γ x) (exprOccs Γ y) := by
    rintro x y (rfl | hy)
    · exact .refl _
    · exact behind_substitute hy
  obtain ⟨l, k, p, hp, hcases⟩ := Context.onExpr_eq_some h
  obtain ⟨hl, hk⟩ := Context.substitutePair_eq_some hp
  rcases hcases with ⟨op, rfl, rfl⟩ | ⟨rfl, rfl⟩ | ⟨f, rfl, rfl⟩
  · exact .append (hone hl) (hone hk)
  · exact .append (hone hl) (hone hk)
  · exact .append (.refl _) (.append (hone hl) (.append (hone hk) (.refl _)))

/-- A new `local` assigns nothing, and what it declares is in scope behind it. -/
theorem behind_assign {id : NodeId} {targets values : List Expr} {s : Stmt}
    (h : (tableOf options b).assign id targets values = some s) :
    KeepsBehind b K N (stmtOccs Γ (.assign id targets values)) (stmtOccs Γ s) ∧
      Covers K N (after Γ (.assign id targets values)) (after Γ s) := by
  rcases Context.assign_eq_some h with ⟨hall, rfl⟩ | ⟨t, v, v', rfl, rfl, hv', rfl⟩
  · constructor
    · rw [stmtOccs, stmtOccs, targetsOccs_of_declaredBy hall, List.append_nil]
      exact .cons (fun _ hlocal => by contradiction) (.refl _)
    · rintro n - ⟨γ, hγ, hlocal, hrest⟩
      rcases List.mem_cons.mp hγ with rfl | hγ
      · contradiction
      · exact ⟨γ, List.mem_cons_of_mem _ hγ, hlocal, hrest⟩
  · constructor
    · exact .cons (fun h => h) (.append (.append (behind_substitute hv') (.refl _)) (.refl _))
    · exact .refl _

/-- A `local` with a name that is read is not removed. -/
theorem covers_of_isDeadStmt (hK : ∀ m, K m → IsRead b m) (s : Stmt)
    (h : (!(tableOf options b).isDeadStmt s) = false) (Γ : Scope) :
    Covers K N (after Γ s) Γ := by
  rw [Bool.not_eq_false'] at h
  cases s with
  | declare id names values =>
      rintro n - ⟨γ, hγ, hlocal, hn, m, hm, hKm⟩
      rcases List.mem_cons.mp hγ with rfl | hγ
      · obtain ⟨Θ, hread⟩ := hK m hKm
        obtain ⟨v, hv, hpos⟩ := reads_pos hread
        obtain ⟨w, hw, hzero⟩ := Context.isDead_eq_true h hm
        obtain rfl := Option.some.inj (hv.symm.trans hw)
        omega
      · exact ⟨γ, hγ, hlocal, hn, m, hm, hKm⟩
  | _ => contradiction

theorem respects_temporaries (options : Options) (hK : ∀ m, K m → IsRead b m) :
    Respects (tableOf options b).pass (fun _ => True) (Covers K N) (KeepsBehind b K N) where
  toRescoping := rescoping_behind b K N
  revalue _ _ _ _ := .cons (fun h => h) (.refl [])
  known _ _ _ _ _ _ h := .cons (fun h => h) (h trivial)
  name := (keeps_temporaries (L := N) (coherent_tableOf options b)).name
  expr _ _ _ _ h := behind_operands h
  stmt Γ s s' _ h := by
    cases s with
    | assign id targets values => exact (behind_assign h).1
    | call f args =>
        obtain ⟨a, ha, rfl⟩ := Option.map_eq_some_iff.mp h
        have hcall : (tableOf options b).pass.onExpr (.call f args) = some (.call a.1 a.2) :=
          Option.map_eq_some_iff.mpr ⟨a, ha, rfl⟩
        exact behind_operands hcall
    | _ => contradiction
  after Γ s s' h := by
    cases s with
    | assign id targets values => exact (behind_assign h).2
    | call f args =>
        obtain ⟨a, -, rfl⟩ := Option.map_eq_some_iff.mp h
        exact .refl Γ
    | _ => contradiction
  block Γ b₁ b₂ h := by
    obtain rfl := Context.block_eq_some h
    exact (rescoping_behind b K N).stmts_filter (covers_of_isDeadStmt hK) .trans
      (fun zs _ _ => .drop zs) b₁ (.refl Γ)
  afterAll Γ b₁ b₂ h := by
    obtain rfl := Context.block_eq_some h
    exact (rescoping_behind b K N).afterAll_filter (covers_of_isDeadStmt hK) .trans b₁ (.refl Γ)

theorem respects_folding (b : Block) (K N : String → Prop) :
    Respects Folding.pass (fun _ => True) (Covers K N) (KeepsBehind b K N) where
  toRescoping := rescoping_behind b K N
  revalue _ _ _ _ := .cons (fun h => h) (.refl [])
  known _ _ _ _ _ _ h := .cons (fun h => h) (h trivial)
  name := (keeps_folding (c := ⟨default, b.usage⟩) (L := N)).name
  expr Γ e e' _ h := by
    rcases exprOccs_folding Γ h with hsame | hnone
    · rw [hsame]
      exact .refl _
    · rw [hnone]
      exact fun _ => List.forall_mem_nil _
  stmt Γ s s' _ h := by cases s <;> contradiction
  after Γ s s' h := by cases s <;> contradiction
  block _ _ _ h := by contradiction
  afterAll _ _ _ h := by contradiction

/-! ## Walks and runs -/

/-- What is read afterwards was read before.  Where a name was assigned behind a shield of names that
are read afterwards, it still is. -/
structure Retains (n : String) (b b' : Block) : Prop where
  reads : ∀ m, IsRead b' m → IsRead b m
  writes : ∀ K : String → Prop, (∀ m, K m → IsRead b' m) →
    (∀ Γ, Assigned b n Γ → Shields K n Γ) → ∀ Γ, Assigned b' n Γ → Shields K n Γ

namespace Retains

variable {n : String}

theorem refl (n : String) (b : Block) : Retains n b b := ⟨fun _ h => h, fun _ _ h => h⟩

theorem trans {b' b'' : Block} (h : Retains n b b') (h' : Retains n b' b'') :
    Retains n b b'' := by
  constructor
  · intro m hm
    exact h.reads m (h'.reads m hm)
  · intro K hK hwrites
    -- what is read at the end is read in between
    have hK' : ∀ m, K m → IsRead b' m := fun m hm => h'.reads m (hK m hm)
    exact h'.writes K hK (h.writes K hK' hwrites)

/-- A pass retains if it respects the invariant for whatever the block reads. -/
theorem walk {p : Pass} (hp : ∀ K N : String → Prop, (∀ m, K m → IsRead b m) →
    Respects p (fun _ => True) (Covers K N) (KeepsBehind b K N)) : Retains n b (p.walk b).1 := by
  have hwalk : ∀ K N : String → Prop, (∀ m, K m → IsRead b m) →
      AllBehind b K N (occurrences b) → AllBehind b K N (occurrences (p.walk b).1) := by
    intro K N hK
    refine Pass.walk_preserves (P := fun b' => AllBehind b K N (occurrences b')) ?_
    exact fun b₁ b₂ hstep => (hp K N hK).block_step hstep [] trivial
  have hreads : ∀ m, IsRead (p.walk b).1 m → IsRead b m := by
    rintro m ⟨Γ, hm⟩
    have hstart : AllBehind b (fun _ => False) (fun _ => False) (occurrences b) := by
      intro i hi
      cases i with
      | read k Θ => exact ⟨Θ, hi⟩
      | bind β values Θ => exact fun _ _ _ h => h.elim
    exact hwalk _ _ (fun _ h => h.elim) hstart _ hm
  refine ⟨hreads, ?_⟩
  intro K hK hwrites Γ hassigned
  have hstart : AllBehind b K (· = n) (occurrences b) := by
    intro i hi
    cases i with
    | read k Θ => exact ⟨Θ, hi⟩
    | bind β values Θ =>
        rintro hlocal k hk rfl
        exact hwrites Θ ⟨β, values, hi, hlocal, hk⟩
  obtain ⟨β, values, hi, hlocal, hn⟩ := hassigned
  exact hwalk K (· = n) (fun m hm => hreads m (hK m hm)) hstart _ hi hlocal n hn rfl

end Retains

theorem retains_simplify (options : Options) (b : Block) (n : String) :
    Retains n b (b.simplify options none).1 := by
  refine Pipeline.run_preserves (P := Retains n b) (Pipeline.standard options none) ?_ (.refl n b)
  intro r hr b' hb'
  simp only [Pipeline.standard, Option.toList_none, List.map_nil, List.nil_append,
    List.mem_cons, List.not_mem_nil, or_false] at hr
  rcases hr with rfl | rfl
  · exact hb'.trans (.walk fun K N _ => respects_folding b' K N)
  · exact hb'.trans (.walk fun K N hK => respects_temporaries options hK)

end Scoping

open Scoping

/-- If every assignment to a name is in scope of a `local` that declares the name, and of whose names
one is still read when all is done, then so is every assignment to the name that is left. -/
theorem assigned_simplify (options : Options) (b : Block) (n : String)
    (h : ∀ Γ, Assigned b n Γ → ∃ β ∈ Γ, β.isLocal ∧ n ∈ β.names ∧
      ∃ m ∈ β.names, IsRead (b.simplify options none).1 m) :
    ∀ Γ, Assigned (b.simplify options none).1 n Γ → ∃ β ∈ Γ, β.isLocal ∧ n ∈ β.names := by
  intro Γ hassigned
  obtain ⟨β, hβ, hlocal, hn, -⟩ :=
    (retains_simplify options b n).writes _ (fun _ hm => hm) h Γ hassigned
  exact ⟨β, hβ, hlocal, hn⟩

/-- `local x = a; local _1 = t[k]; if c then x = _1 end; return x`: the `local` that is assigned in the
branch stays, the temporary goes. -/
def Scoping.assignedInBranch : Block :=
  [.declare 1 ["x"] [.name "a"], .declare 2 ["_1"] [.index (.name "t") (.name "k")],
   .branch [.mk (.name "c") [.assign 3 [.name "x"] [.name "_1"]]] none, .ret [.name "x"]]

theorem Scoping.simplify_assignedInBranch :
    assignedInBranch.simplify .standard none =
      ([.declare 1 ["x"] [.name "a"],
        .branch [.mk (.name "c") [.assign 3 [.name "x"] [.index (.name "t") (.name "k")]]] none,
        .ret [.name "x"]], ⟨3, 2, true⟩) := rfl

theorem assigned_simplify_branching :
    (∀ Γ, Assigned assignedInBranch "x" Γ → ∃ β ∈ Γ, β.isLocal ∧ "x" ∈ β.names ∧
        ∃ m ∈ β.names, IsRead (assignedInBranch.simplify .standard none).1 m) ∧
      ∀ Γ, Assigned (assignedInBranch.simplify .standard none).1 "x" Γ →
        ∃ β ∈ Γ, β.isLocal ∧ "x" ∈ β.names := by
  have hread : IsRead (assignedInBranch.simplify .standard none).1 "x" := by
    rw [simplify_assignedInBranch]
    exact ⟨[⟨1, true, ["x"]⟩], by simp [occurrences, stmtsOccs, stmtOccs, clausesOccs, exprsOccs,
      exprOccs, after, binding?]⟩
  have h : ∀ Γ, Assigned assignedInBranch "x" Γ → ∃ β ∈ Γ, β.isLocal ∧ "x" ∈ β.names ∧
      ∃ m ∈ β.names, IsRead (assignedInBranch.simplify .standard none).1 m := by
    rintro Γ ⟨β, values, hbind, hlocal, -⟩
    have hΓ : Γ = [⟨2, true, ["_1"]⟩, ⟨1, true, ["x"]⟩] := by
      simp [assignedInBranch, occurrences, stmtsOccs, stmtOccs, clausesOccs, exprsOccs, exprOccs,
        targetsOccs, after, binding?, Expr.name?] at hbind
      rcases hbind with ⟨rfl, -, -⟩ | ⟨rfl, -, -⟩ | ⟨-, -, rfl⟩
      · contradiction
      · contradiction
      · rfl
    subst hΓ
    exact ⟨⟨1, true, ["x"]⟩, by simp, rfl, by simp, "x", by simp, hread⟩
  exact ⟨h, assigned_simplify .standard assignedInBranch "x" h⟩

/-- `local x = a; x = b` -/
def Scoping.unread : Block :=
  [.declare 1 ["x"] [.name "a"], .assign 2 [.name "x"] [.name "b"]]

/-- The `local` of a name that is assigned but not read is removed, and the assignment is left
without it. -/
theorem assigned_simplify_unread :
    ¬ ∀ (options : Options) (b : Block) (n : String),
      (b.simplify options none).2.converged = true →
      (∀ Γ, Assigned b n Γ → ∃ β ∈ Γ, β.isLocal ∧ n ∈ β.names) →
      ∀ Γ, Assigned (b.simplify options none).1 n Γ → ∃ β ∈ Γ, β.isLocal ∧ n ∈ β.names := by
  intro h
  have hrun : unread.simplify .standard none =
      ([.assign 2 [.name "x"] [.name "b"]], ⟨2, 1, true⟩) := rfl
  have hscope : ∀ Γ, Assigned unread "x" Γ → ∃ β ∈ Γ, β.isLocal ∧ "x" ∈ β.names := by
    rintro Γ ⟨β, values, hbind, hlocal, -⟩
    simp [unread, occurrences, stmtsOccs, stmtOccs, exprsOccs, exprOccs, targetsOccs, after,
      binding?, Expr.name?] at hbind
    rcases hbind with ⟨rfl, -, -⟩ | ⟨-, -, rfl⟩
    · contradiction
    · exact ⟨_, List.mem_singleton_self _, rfl, by simp⟩
  have hbare : Assigned (unread.simplify .standard none).1 "x" [] := by
    rw [hrun]
    exact ⟨⟨2, false, ["x"]⟩, [.name "b"], List.mem_cons_self, rfl, by simp⟩
  obtain ⟨β, hβ, -⟩ := h .standard unread "x" (by rw [hrun]) hscope [] hbare
  contradiction

end Devirt
