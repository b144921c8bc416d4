import Devirt.Bytecode.Path
import Mathlib.Tactic

set_option autoImplicit false

/-! # The instructions of a tree in a row

A walk over a tree of prototypes meets the instructions of a prototype by index, and then those of its
children.  In this order they are listed by `sites`, each with the name of its function and its index;
`mem_sites` says which instructions these are.  `mapCode` changes every instruction where it stands. -/

namespace Devirt

/-- An instruction of a tree. -/
structure Site where
  /-- The name of the function. -/
  function : String
  index : Nat
  instruction : Instruction

/-- The site with its instruction changed; `f` is told its index. -/
def Site.map (f : Nat → Instruction → Instruction) (s : Site) : Site :=
  ⟨s.function, s.index, f s.index s.instruction⟩

namespace Prototype

/-! ## Definitions -/

mutual

/-- The instructions of a tree, those of a prototype before those of its children. -/
def sites : Prototype → List Site
  | mk h is _ ps => is.mapIdx (fun k i => ⟨h.name, k, i⟩) ++ sitesAll ps

def sitesAll : List Prototype → List Site
  | [] => []
  | p :: ps => sites p ++ sitesAll ps

end

/-- The instructions alone. -/
def code (p : Prototype) : List Instruction := p.sites.map Site.instruction

variable (f : Nat → Instruction → Instruction)

mutual

/-- The tree with every instruction changed where it stands. -/
def mapCode : Prototype → Prototype
  | mk h is ks ps => mk h (is.mapIdx f) ks (mapCodeAll ps)

def mapCodeAll : List Prototype → List Prototype
  | [] => []
  | p :: ps => mapCode p :: mapCodeAll ps

end

@[simp] theorem sitesAll_eq (ps : List Prototype) : sitesAll ps = ps.flatMap sites := by
  induction ps with
  | nil => rfl
  | cons p ps ih => rw [sitesAll, ih, List.flatMap_cons]

@[simp] theorem mapCodeAll_eq (ps : List Prototype) : mapCodeAll f ps = ps.map (mapCode f) := by
  induction ps with
  | nil => rfl
  | cons p ps ih => rw [mapCodeAll, ih, List.map_cons]

@[simp] theorem code_mk (h : Header) (is : List Instruction) (ks : List Constant)
    (ps : List Prototype) : (mk h is ks ps).code = is ++ ps.flatMap code := by
  have hown : (is.mapIdx fun k i => (⟨h.name, k, i⟩ : Site)).map Site.instruction = is := by
    apply List.ext_getElem?
    simp [Function.comp_def]
  rw [code, sites, List.map_append, hown, sitesAll_eq, List.map_flatMap]
  rfl

/-! ## Which instructions are listed -/

theorem mem_own_sites {h : Header} {is : List Instruction} {s : Site} :
    s ∈ is.mapIdx (fun k i => (⟨h.name, k, i⟩ : Site))
      ↔ s.function = h.name ∧ is[s.index]? = some s.instruction := by
  obtain ⟨n, k, i⟩ := s
  simp only [List.mem_mapIdx, Site.mk.injEq]
  constructor
  · rintro ⟨k, hk, rfl, rfl, rfl⟩
    exact ⟨rfl, List.getElem?_eq_getElem hk⟩
  · rintro ⟨rfl, hi⟩
    obtain ⟨hk, rfl⟩ := List.getElem?_eq_some_iff.mp hi
    exact ⟨k, hk, rfl, rfl, rfl⟩

mutual

theorem exists_place (p : Prototype) {s : Site} (hs : s ∈ p.sites) :
    ∃ path q, p.descend? path = some q ∧ q.name = s.function ∧
      q.instructions[s.index]? = some s.instruction := by
  obtain ⟨h, is, ks, ps⟩ := p
  rcases List.mem_append.mp hs with hown | hchild
  · obtain ⟨hname, hi⟩ := mem_own_sites.mp hown
    exact ⟨[], _, rfl, hname.symm, hi⟩
  · obtain ⟨n, p, hp, path, q, hq, hsite⟩ := exists_child ps hchild
    refine ⟨n :: path, q, ?_, hsite⟩
    rw [descend?, children, hp]
    exact hq

theorem exists_child (ps : List Prototype) {s : Site} (hs : s ∈ sitesAll ps) :
    ∃ (n : Nat) (p : Prototype), ps[n]? = some p ∧ ∃ path q, p.descend? path = some q ∧
      q.name = s.function ∧ q.instructions[s.index]? = some s.instruction := by
  cases ps with
  | nil => cases hs
  | cons p ps =>
      rcases List.mem_append.mp hs with hp | hrest
      · exact ⟨0, p, rfl, exists_place p hp⟩
      · obtain ⟨n, q, hq, hsite⟩ := exists_child ps hrest
        exact ⟨n + 1, q, hq, hsite⟩

end

/-- A place begins with a child. -/
theorem exists_child_of_descend? {n : Nat} {path : List Nat} {p q : Prototype}
    (h : p.descend? (n :: path) = some q) :
    ∃ child, p.children[n]? = some child ∧ child.descend? path = some q :=
  Option.bind_eq_some_iff.mp h

theorem mem_sites_of_place {path : List Nat} {p q : Prototype} {k : Nat} {i : Instruction}
    (hq : p.descend? path = some q) (hi : q.instructions[k]? = some i) :
    ⟨q.name, k, i⟩ ∈ p.sites := by
  induction path generalizing p with
  | nil =>
      obtain rfl : p = q := Option.some.inj hq
      obtain ⟨h, is, ks, ps⟩ := p
      exact List.mem_append.mpr (.inl (mem_own_sites.mpr ⟨rfl, hi⟩))
  | cons n path ih =>
      obtain ⟨child, hchild, hdescend⟩ := exists_child_of_descend? hq
      obtain ⟨h, is, ks, ps⟩ := p
      refine List.mem_append.mpr (.inr ?_)
      rw [sitesAll_eq]
      exact List.mem_flatMap.mpr ⟨child, List.mem_of_getElem? hchild, ih hdescend⟩

/-- The instructions listed are the ones that stand somewhere in the tree. -/
theorem mem_sites {p : Prototype} {s : Site} :
    s ∈ p.sites ↔ ∃ path q, p.descend? path = some q ∧ q.name = s.function ∧
      q.instructions[s.index]? = some s.instruction := by
  constructor
  · exact exists_place p
  · rintro ⟨path, q, hq, hname, hi⟩
    have hmem := mem_sites_of_place hq hi
    rwa [hname] at hmem

/-! ## Changing every instruction -/

@[simp] theorem header_mapCode (p : Prototype) : (p.mapCode f).header = p.header := by
  cases p; rfl

@[simp] theorem constants_mapCode (p : Prototype) : (p.mapCode f).constants = p.constants := by
  cases p; rfl

@[simp] theorem instructions_mapCode (p : Prototype) :
    (p.mapCode f).instructions = p.instructions.mapIdx f := by
  cases p; rfl

@[simp] theorem children_mapCode (p : Prototype) :
    (p.mapCode f).children = p.children.map (mapCode f) := by
  obtain ⟨h, is, ks, ps⟩ := p
  exact mapCodeAll_eq f ps

/-- The prototype at a place is changed like the tree. -/
theorem descend?_mapCode (path : List Nat) (p : Prototype) :
    (p.mapCode f).descend? path = (p.descend? path).map (mapCode f) := by
  induction path generalizing p with
  | nil => rfl
  | cons n path ih =>
      rw [descend?, descend?, children_mapCode, List.getElem?_map]
      cases p.children[n]? with
      | none => rfl
      | some child => simpa using ih child

mutual

/-- Two changes, one after the other, are one. -/
theorem mapCode_mapCode (f g : Nat → Instruction → Instruction) (p : Prototype) :
    (p.mapCode f).mapCode g = p.mapCode fun k i => g k (f k i) := by
  obtain ⟨h, is, ks, ps⟩ := p
  rw [mapCode, mapCode, mapCode, mapCodeAll_mapCodeAll f g ps, List.mapIdx_mapIdx]
  rfl

theorem mapCodeAll_mapCodeAll (f g : Nat → Instruction → Instruction) (ps : List Prototype) :
    mapCodeAll g (mapCodeAll f ps) = mapCodeAll (fun k i => g k (f k i)) ps := by
  cases ps with
  | nil => rfl
  | cons p ps =>
      rw [mapCodeAll, mapCodeAll, mapCodeAll, mapCode_mapCode f g p,
        mapCodeAll_mapCodeAll f g ps]

end

mutual

theorem sites_mapCode (p : Prototype) : (p.mapCode f).sites = p.sites.map (Site.map f) := by
  obtain ⟨h, is, ks, ps⟩ := p
  have hown : (is.mapIdx f).mapIdx (fun k i => (⟨h.name, k, i⟩ : Site))
      = (is.mapIdx fun k i => (⟨h.name, k, i⟩ : Site)).map (Site.map f) := by
    apply List.ext_getElem?
    simp [Function.comp_def, Site.map]
  rw [mapCode, sites, sites, List.map_append, sitesAll_mapCodeAll ps, hown]

theorem sitesAll_mapCodeAll (ps : List Prototype) :
    sitesAll (mapCodeAll f ps) = (sitesAll ps).map (Site.map f) := by
  cases ps with
  | nil => rfl
  | cons p ps =>
      rw [mapCodeAll, sitesAll, sitesAll, List.map_append, sites_mapCode p,
        sitesAll_mapCodeAll ps]

end

end Prototype

end Devirt
