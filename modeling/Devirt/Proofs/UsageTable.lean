import Devirt.Usage
import Mathlib.Tactic

set_option autoImplicit false

/-! # What the usage table says of a name

The table is a fold over all events, but the entry of a name depends on the events about that name
alone: it is the variable that `track` makes of them (`get?_tabulate`).  From there three facts that
the rules for temporaries rest on:

* the reads of an entry are the read events of the name (`reads_track`);
* its declaration, its value and its place come from one event, the first that binds the name
  (`split_first_binding`);
* of a name that is declared and does not escape, every read comes after that event, at a place
  inside the block of the declaration (`binding_before_read`). -/

namespace Devirt

namespace Dict

variable {κ υ ω : Type} [DecidableEq κ]

theorem find_map (f : υ → ω) (k : κ) (l : List (κ × υ)) :
    find k (l.map fun p => (p.1, f p.2)) = (find k l).map f := by
  induction l with
  | nil => rfl
  | cons p l ih =>
      by_cases h : p.1 = k
      · simp [find, h]
      · simp [find, h, ih]

end Dict

namespace Usage

/-! ## The variable of one name -/

/-- The variable that a list of events makes of `n`, starting from `t`. -/
def trackFrom (n : String) (t : Tracked) (es : List Event) : Tracked :=
  es.foldl (fun t e => if e.name = n then e.apply t else t) t

/-- The variable that a list of events makes of `n`. -/
def track (n : String) (es : List Event) : Tracked := trackFrom n .fresh es

theorem trackFrom_cons (n : String) (t : Tracked) (e : Event) (es : List Event) :
    trackFrom n t (e :: es) = trackFrom n (if e.name = n then e.apply t else t) es := rfl

theorem trackFrom_append (n : String) (t : Tracked) (es es' : List Event) :
    trackFrom n t (es ++ es') = trackFrom n (trackFrom n t es) es' := by
  simp [trackFrom]

theorem trackFrom_of_absent {n : String} {es : List Event} (h : ∀ e ∈ es, e.name ≠ n)
    (t : Tracked) : trackFrom n t es = t := by
  induction es generalizing t with
  | nil => rfl
  | cons e es ih =>
      rw [trackFrom_cons, if_neg (h e (by simp)), ih fun e' he' => h e' (by simp [he'])]

theorem get?_record (d : Dict String Tracked) (e : Event) (n : String) :
    (record d e).get? n =
      if e.name = n then some (e.apply ((d.get? n).getD .fresh)) else d.get? n := by
  by_cases h : e.name = n
  · subst h; simp [record]
  · simp [record, h]

theorem get?_foldl_record (es : List Event) (d : Dict String Tracked) (n : String) :
    (es.foldl record d).get? n =
      if ∃ e ∈ es, e.name = n then some (trackFrom n ((d.get? n).getD .fresh) es)
      else d.get? n := by
  induction es generalizing d with
  | nil => simp
  | cons e es ih =>
      rw [List.foldl_cons, ih, get?_record, trackFrom_cons]
      -- without a later event about `n` its entry is the one made here
      by_cases he : e.name = n
      · by_cases hes : ∃ e' ∈ es, e'.name = n
        · simp [he, hes]
        · have habsent : ∀ e' ∈ es, e'.name ≠ n := fun e' he' hn => hes ⟨e', he', hn⟩
          simp [he, hes, trackFrom_of_absent habsent]
      · simp [he]

/-- The entry of a name is what the events about the name make of it. -/
theorem get?_tabulate (es : List Event) (n : String) :
    (tabulate es).get? n = if ∃ e ∈ es, e.name = n then some (track n es).info else none := by
  have h : (tabulate es).get? n = ((es.foldl record .empty).get? n).map (·.info) :=
    Dict.find_map _ _ _
  rw [h, get?_foldl_record]
  by_cases hes : ∃ e ∈ es, e.name = n
  · simp [hes, track]
  · simp [hes]

theorem get?_tabulate_of_mem {es : List Event} {e : Event} (he : e ∈ es) :
    (tabulate es).get? e.name = some (track e.name es).info := by
  rw [get?_tabulate, if_pos ⟨e, he, rfl⟩]

theorem eq_track_of_get? {es : List Event} {n : String} {v : Variable}
    (h : (tabulate es).get? n = some v) : v = (track n es).info := by
  rw [get?_tabulate] at h
  split at h
  · exact (Option.some.inj h).symm
  · contradiction

/-! ## Reads -/

namespace Event

/-- The event reads the name. -/
def isReadOf (n : String) : Event → Bool
  | read m _ => m == n
  | _ => false

end Event

theorem Tracked.reads_usedAt (t : Tracked) (place : Place) :
    (t.usedAt place).info.reads = t.info.reads := by
  unfold Tracked.usedAt
  split
  · rfl
  · split <;> rfl

theorem Tracked.reads_declare (t : Tracked) (place : Place) (id : NodeId) (value : Option Expr) :
    (t.declare place id value).info.reads = t.info.reads := by
  unfold Tracked.declare
  split <;> rfl

theorem Event.reads_apply (e : Event) (t : Tracked) :
    (e.apply t).info.reads = t.info.reads + if e.isReadOf e.name then 1 else 0 := by
  cases e with
  | read m place => simp [Event.apply, Tracked.read, Tracked.reads_usedAt, isReadOf, Event.name]
  | declare m place id value => simp [Event.apply, Tracked.reads_declare, isReadOf]
  | assign m place id value =>
      simp only [Event.apply, Tracked.assign, isReadOf]
      split
      · simp [Tracked.reads_usedAt]
      · simp [Tracked.reads_declare]
  | introduce m => simp [Event.apply, isReadOf]

theorem Event.name_eq_of_isReadOf {n : String} {e : Event} (h : e.isReadOf n) : e.name = n := by
  cases e <;> simp_all [isReadOf, Event.name]

theorem Event.isReadOf_of_name_ne {n : String} {e : Event} (h : e.name ≠ n) : e.isReadOf n = false := by
  rw [← Bool.not_eq_true]
  exact fun hread => h (Event.name_eq_of_isReadOf hread)

theorem reads_trackFrom (n : String) (t : Tracked) (es : List Event) :
    (trackFrom n t es).info.reads = t.info.reads + es.countP (·.isReadOf n) := by
  induction es generalizing t with
  | nil => rfl
  | cons e es ih =>
      rw [trackFrom_cons, ih, List.countP_cons]
      by_cases he : e.name = n
      · subst he
        rw [if_pos rfl, Event.reads_apply]
        omega
      · simp [he, Event.isReadOf_of_name_ne he]

/-- The reads of a name are its read events. -/
theorem reads_track (n : String) (es : List Event) :
    (track n es).info.reads = es.countP (·.isReadOf n) := by
  rw [track, reads_trackFrom]
  exact Nat.zero_add _

/-- A name that is read somewhere has an entry with reads. -/
theorem reads_pos_of_mem {es : List Event} {n : String} {place : Place}
    (h : .read n place ∈ es) : ∃ v, (tabulate es).get? n = some v ∧ 0 < v.reads := by
  refine ⟨(track n es).info, get?_tabulate_of_mem h, ?_⟩
  rw [reads_track, List.countP_pos_iff]
  exact ⟨_, h, by simp [Event.isReadOf]⟩

/-! ## The first binding -/

namespace Event

/-- Place, statement and value of a binding. -/
def binding? : Event → Option (Place × NodeId × Option Expr)
  | declare _ place id value => some (place, id, value)
  | assign _ place id value => some (place, id, value)
  | read .. | introduce _ => none

end Event

namespace Tracked

/-- What is recorded of the declaration is the same. -/
structure SameDeclaration (t t' : Tracked) : Prop where
  declaration : t'.info.declaration = t.info.declaration
  value : t'.info.value = t.info.value
  home : t'.home = t.home

theorem SameDeclaration.refl (t : Tracked) : SameDeclaration t t := ⟨rfl, rfl, rfl⟩

theorem SameDeclaration.trans {t u v : Tracked} (h : SameDeclaration t u)
    (h' : SameDeclaration u v) : SameDeclaration t v :=
  ⟨h'.declaration.trans h.declaration, h'.value.trans h.value, h'.home.trans h.home⟩

/-- What is recorded of a declaration is recorded all at once. -/
structure Coherent (t : Tracked) : Prop where
  home_isSome : t.home.isSome = t.info.declaration.isSome
  value_none : t.info.declaration = none → t.info.value = none

theorem coherent_fresh : fresh.Coherent := ⟨rfl, fun _ => rfl⟩

/-- The use of a variable touches neither its declaration nor its value. -/
theorem usedAt_eq (t : Tracked) (place : Place) :
    t.usedAt place = t ∨ t.usedAt place = { t with info := { t.info with escapes := true } } := by
  unfold usedAt
  split
  · exact .inl rfl
  · split
    · exact .inl rfl
    · exact .inr rfl

theorem SameDeclaration.usedAt {t t' : Tracked} (h : SameDeclaration t t') (place : Place) :
    SameDeclaration t (t'.usedAt place) := by
  rcases usedAt_eq t' place with h' | h'
  · rw [h']
    exact h
  · rw [h']
    exact h.trans ⟨rfl, rfl, rfl⟩

theorem sameDeclaration_read (t : Tracked) (place : Place) : SameDeclaration t (t.read place) := by
  rw [read]
  apply SameDeclaration.usedAt
  exact ⟨rfl, rfl, rfl⟩

end Tracked

/-- A declared variable keeps its declaration, its value and its place. -/
theorem Event.sameDeclaration_apply {t : Tracked} (h : t.info.declaration.isSome) (e : Event) :
    Tracked.SameDeclaration t (e.apply t) := by
  cases e with
  | read m place => exact Tracked.sameDeclaration_read t place
  | declare m place id value =>
      rw [Event.apply, Tracked.declare, if_pos h]
      exact .refl t
  | assign m place id value =>
      rw [Event.apply, Tracked.assign, if_pos h]
      apply Tracked.SameDeclaration.usedAt
      exact ⟨rfl, rfl, rfl⟩
  | introduce m => exact ⟨rfl, rfl, rfl⟩

/-- An undeclared variable is declared by a binding, and by nothing else. -/
theorem Event.declaration_apply_of_none {t : Tracked} (h : t.info.declaration = none)
    (e : Event) :
    match e.binding? with
    | none => Tracked.SameDeclaration t (e.apply t)
    | some (place, id, value) => (e.apply t).info.declaration = some id ∧
        (e.apply t).info.value = value ∧ (e.apply t).home = some place ∧
        (e.apply t).info.escapes = (t.info.escapes || decide (0 < t.info.reads)) := by
  cases e with
  | read m place => exact Tracked.sameDeclaration_read t place
  | declare m place id value => simp [Event.apply, Event.binding?, Tracked.declare, h]
  | assign m place id value =>
      simp [Event.apply, Event.binding?, Tracked.assign, Tracked.declare, h]
  | introduce m => exact ⟨rfl, rfl, rfl⟩

theorem Tracked.Coherent.of_sameDeclaration {t t' : Tracked} (h : t.Coherent)
    (hs : SameDeclaration t t') : t'.Coherent := by
  constructor
  · rw [hs.home, hs.declaration, h.home_isSome]
  · intro hn
    rw [hs.declaration] at hn
    rw [hs.value, h.value_none hn]

theorem Event.coherent_apply {t : Tracked} (h : t.Coherent) (e : Event) :
    (e.apply t).Coherent := by
  cases hd : t.info.declaration with
  | some d =>
      have hdeclared : t.info.declaration.isSome := by rw [hd]; rfl
      exact h.of_sameDeclaration (Event.sameDeclaration_apply hdeclared e)
  | none =>
      have hb := Event.declaration_apply_of_none hd e
      cases he : e.binding? with
      | none =>
          rw [he] at hb
          exact h.of_sameDeclaration hb
      | some b =>
          rw [he] at hb
          obtain ⟨hdecl, -, hhome, -⟩ := hb
          constructor
          · rw [hhome, hdecl]
            rfl
          · intro hn
            rw [hdecl] at hn
            contradiction

theorem coherent_trackFrom (n : String) {t : Tracked} (h : t.Coherent) (es : List Event) :
    (trackFrom n t es).Coherent := by
  induction es generalizing t with
  | nil => exact h
  | cons e es ih =>
      rw [trackFrom_cons]
      split
      · exact ih (Event.coherent_apply h e)
      · exact ih h

theorem coherent_track (n : String) (es : List Event) : (track n es).Coherent :=
  coherent_trackFrom n Tracked.coherent_fresh es

theorem sameDeclaration_trackFrom {n : String} {t : Tracked} (h : t.info.declaration.isSome)
    (es : List Event) : Tracked.SameDeclaration t (trackFrom n t es) := by
  induction es generalizing t with
  | nil => exact .refl t
  | cons e es ih =>
      rw [trackFrom_cons]
      split
      · have hsame := Event.sameDeclaration_apply h e
        rw [← hsame.declaration] at h
        exact hsame.trans (ih h)
      · exact ih h

/-- What has a value is declared. -/
theorem declared_of_value {n : String} {es : List Event} {x : Expr}
    (h : (track n es).info.value = some x) : ∃ d, (track n es).info.declaration = some d := by
  rw [← Option.ne_none_iff_exists']
  intro hnone
  rw [(coherent_track n es).value_none hnone] at h
  contradiction

/-- The declaration of a name, its value and its place are those of the event that binds it
first. -/
theorem split_first_binding {n : String} {t : Tracked} {es : List Event} {d : NodeId}
    (ht : t.info.declaration = none) (h : (trackFrom n t es).info.declaration = some d) :
    ∃ pre e post place, es = pre ++ e :: post ∧
      (∀ e' ∈ pre, e'.name = n → e'.binding? = none) ∧ e.name = n ∧
      e.binding? = some (place, d, (trackFrom n t es).info.value) ∧
      (trackFrom n t es).home = some place := by
  -- The first event about `n` that binds declares it, and from there on nothing changes that.
  induction es generalizing t with
  | nil =>
      rw [show (trackFrom n t []).info.declaration = none from ht] at h
      contradiction
  | cons e es ih =>
      rw [trackFrom_cons] at h ⊢
      by_cases he : e.name = n
      · rw [if_pos he] at h ⊢
        have hb := Event.declaration_apply_of_none ht e
        cases hbe : e.binding? with
        | none =>
            rw [hbe] at hb
            obtain ⟨pre, e', post, place, rfl, hpre, hrest⟩ := ih (hb.declaration.trans ht) h
            have hcons : ∀ e'' ∈ e :: pre, e''.name = n → e''.binding? = none :=
              List.forall_mem_cons.mpr ⟨fun _ => hbe, hpre⟩
            exact ⟨e :: pre, e', post, place, rfl, hcons, hrest⟩
        | some b =>
            obtain ⟨place, id, value⟩ := b
            rw [hbe] at hb
            obtain ⟨hdecl, hvalue, hhome, -⟩ := hb
            have hdeclared : (e.apply t).info.declaration.isSome := by rw [hdecl]; rfl
            have hsame := sameDeclaration_trackFrom (n := n) hdeclared es
            rw [hsame.declaration, hdecl] at h
            cases h
            refine ⟨[], e, es, place, rfl, by simp, he, ?_, ?_⟩
            · rw [hbe, hsame.value, hvalue]
            · rw [hsame.home, hhome]
      · rw [if_neg he] at h ⊢
        obtain ⟨pre, e', post, place, rfl, hpre, hrest⟩ := ih ht h
        have hcons : ∀ e'' ∈ e :: pre, e''.name = n → e''.binding? = none :=
          List.forall_mem_cons.mpr ⟨fun hc => absurd hc he, hpre⟩
        exact ⟨e :: pre, e', post, place, rfl, hcons, hrest⟩

theorem exists_first_binding {n : String} {t : Tracked} {es : List Event} {d : NodeId}
    (ht : t.info.declaration = none) (h : (trackFrom n t es).info.declaration = some d) :
    ∃ e ∈ es, ∃ place, e.name = n ∧
      e.binding? = some (place, d, (trackFrom n t es).info.value) ∧
      (trackFrom n t es).home = some place := by
  obtain ⟨pre, e, post, place, hsplit, -, hrest⟩ := split_first_binding ht h
  exact ⟨e, by simp [hsplit], place, hrest⟩

/-! ## Names that stay in their block -/

theorem Tracked.escapes_usedAt {t : Tracked} (h : t.info.escapes = true) (place : Place) :
    (t.usedAt place).info.escapes = true := by
  rcases Tracked.usedAt_eq t place with h' | h'
  · rw [h', h]
  · rw [h']

theorem Event.escapes_apply {t : Tracked} (h : t.info.escapes = true) (e : Event) :
    (e.apply t).info.escapes = true := by
  cases e with
  | read m place => exact Tracked.escapes_usedAt (by exact h) place
  | declare m place id value =>
      simp only [Event.apply, Tracked.declare]
      split <;> simp [h]
  | assign m place id value =>
      simp only [Event.apply, Tracked.assign, Tracked.declare]
      split
      · exact Tracked.escapes_usedAt (by exact h) place
      · simp [h]
  | introduce m => exact h

theorem escapes_trackFrom {n : String} {t : Tracked} (h : t.info.escapes = true)
    (es : List Event) : (trackFrom n t es).info.escapes = true := by
  induction es generalizing t with
  | nil => exact h
  | cons e es ih =>
      rw [trackFrom_cons]
      split
      · exact ih (Event.escapes_apply h e)
      · exact ih h

theorem Event.reads_le_apply (e : Event) (t : Tracked) :
    t.info.reads ≤ (e.apply t).info.reads := by
  rw [Event.reads_apply]
  omega

/-- A name that is read before it is declared escapes. -/
theorem escapes_of_read_undeclared {n : String} {t : Tracked} {es : List Event}
    (ht : t.info.declaration = none) (hr : 0 < t.info.reads)
    (hd : (trackFrom n t es).info.declaration.isSome) :
    (trackFrom n t es).info.escapes = true := by
  -- The reads only grow until the event that declares, which looks at them.
  induction es generalizing t with
  | nil =>
      rw [show (trackFrom n t []).info.declaration = none from ht] at hd
      contradiction
  | cons e es ih =>
      rw [trackFrom_cons] at hd ⊢
      by_cases he : e.name = n
      · rw [if_pos he] at hd ⊢
        have hb := Event.declaration_apply_of_none ht e
        cases hbe : e.binding? with
        | none =>
            rw [hbe] at hb
            have hreads : 0 < (e.apply t).info.reads := by
              have := Event.reads_le_apply e t
              omega
            exact ih (hb.declaration.trans ht) hreads hd
        | some b =>
            rw [hbe] at hb
            refine escapes_trackFrom ?_ es
            rw [hb.2.2.2]
            simp [hr]
      · rw [if_neg he] at hd ⊢
        exact ih ht hr hd

/-- A use outside the block of the declaration escapes. -/
theorem escapes_usedAt_of_outside {t : Tracked} {home place : Place} (hh : t.home = some home)
    (h : ¬ home <+: place) : (t.usedAt place).info.escapes = true := by
  have hp : home.isPrefixOf place = false := by
    rw [Bool.eq_false_iff]
    intro hc
    exact h (List.isPrefixOf_iff_prefix.mp hc)
  simp [Tracked.usedAt, hh, hp]

/-- Of a name that is declared and does not escape, every read comes after the event that binds it
first, inside the block where that happens. -/
theorem split_binding_before_read {pre post : List Event} {n : String} {place : Place} {d : NodeId}
    (hd : (track n (pre ++ .read n place :: post)).info.declaration = some d)
    (he : (track n (pre ++ .read n place :: post)).info.escapes = false) :
    ∃ pre₁ e pre₂ home, pre = pre₁ ++ e :: pre₂ ∧
      (∀ e' ∈ pre₁, e'.name = n → e'.binding? = none) ∧ e.name = n ∧
      e.binding? = some (home, d, (track n (pre ++ .read n place :: post)).info.value) ∧
      home <+: place := by
  have hsplit : track n (pre ++ .read n place :: post)
      = trackFrom n ((track n pre).read place) post := by
    rw [track, trackFrom_append, trackFrom_cons]
    exact congrArg (trackFrom n · post) (if_pos rfl)
  rw [hsplit] at hd he ⊢
  -- a read of an undeclared name makes it escape, and so does a read outside its block
  have hread := Tracked.sameDeclaration_read (track n pre) place
  cases hpre : (track n pre).info.declaration with
  | none =>
      have hreads : 0 < ((track n pre).read place).info.reads := by
        rw [Tracked.read, Tracked.reads_usedAt]
        exact Nat.succ_pos _
      have hdeclared : (trackFrom n ((track n pre).read place) post).info.declaration.isSome := by
        rw [hd]
        rfl
      have hesc := escapes_of_read_undeclared (hread.declaration.trans hpre) hreads hdeclared
      rw [he] at hesc
      contradiction
  | some d' =>
      have hdeclared : ((track n pre).read place).info.declaration.isSome := by
        rw [hread.declaration, hpre]
        rfl
      have hsame := hread.trans (sameDeclaration_trackFrom (n := n) hdeclared post)
      rw [hsame.declaration, hpre] at hd
      cases hd
      obtain ⟨pre₁, e, pre₂, home, heq, hfirst, hname, hbind, hhome⟩ :=
        split_first_binding rfl hpre
      refine ⟨pre₁, e, pre₂, home, heq, hfirst, hname, ?_, ?_⟩
      · rw [hsame.value]
        exact hbind
      · by_contra hout
        have hesc : ((track n pre).read place).info.escapes = true :=
          escapes_usedAt_of_outside hhome hout
        rw [escapes_trackFrom hesc post] at he
        contradiction

theorem binding_before_read {pre post : List Event} {n : String} {place : Place} {d : NodeId}
    (hd : (track n (pre ++ .read n place :: post)).info.declaration = some d)
    (he : (track n (pre ++ .read n place :: post)).info.escapes = false) :
    ∃ e ∈ pre, ∃ home, e.name = n ∧
      e.binding? = some (home, d, (track n (pre ++ .read n place :: post)).info.value) ∧
      home <+: place := by
  obtain ⟨pre₁, e, pre₂, home, heq, -, hrest⟩ := split_binding_before_read hd he
  exact ⟨e, by simp [heq], home, hrest⟩

/-! ## Assignments after the first binding -/

namespace Event

/-- The event assigns the name. -/
def isAssignOf (n : String) : Event → Bool
  | assign m .. => m == n
  | _ => false

end Event

theorem Tracked.assignments_usedAt (t : Tracked) (place : Place) :
    (t.usedAt place).info.assignments = t.info.assignments := by
  rcases usedAt_eq t place with h | h <;> rw [h]

theorem Event.assignments_apply {t : Tracked} (h : t.info.declaration.isSome) (e : Event) :
    (e.apply t).info.assignments
      = t.info.assignments + if e.isAssignOf e.name then 1 else 0 := by
  cases e with
  | read m place => exact Tracked.assignments_usedAt _ place
  | declare m place id value =>
      rw [Event.apply, Tracked.declare, if_pos h]
      rfl
  | assign m place id value =>
      rw [Event.apply, Tracked.assign, if_pos h, Tracked.assignments_usedAt]
      simp [isAssignOf, Event.name]
  | introduce m => rfl

/-- Once a name is declared, all events that assign it are counted. -/
theorem assignments_trackFrom {n : String} {t : Tracked} (h : t.info.declaration.isSome)
    (es : List Event) :
    (trackFrom n t es).info.assignments = t.info.assignments + es.countP (·.isAssignOf n) := by
  induction es generalizing t with
  | nil => rfl
  | cons e es ih =>
      rw [trackFrom_cons, List.countP_cons]
      by_cases he : e.name = n
      · subst he
        have hsame := Event.sameDeclaration_apply h e
        rw [if_pos rfl, ih (by rw [hsame.declaration]; exact h), Event.assignments_apply h]
        omega
      · have hassign : e.isAssignOf n = false := by
          cases e <;> simp_all [Event.isAssignOf, Event.name]
        rw [if_neg he, ih h, hassign]
        rfl

/-- What is not assigned after its first binding, no later event assigns. -/
theorem not_assigned_after_binding {pre post : List Event} {e : Event}
    (hb : e.binding?.isSome) (h : (track e.name (pre ++ e :: post)).info.assignments = 0) :
    ∀ e' ∈ post, e'.isAssignOf e.name = false := by
  have hsplit : track e.name (pre ++ e :: post)
      = trackFrom e.name (e.apply (track e.name pre)) post := by
    rw [track, trackFrom_append, trackFrom_cons]
    exact congrArg (trackFrom e.name · post) (if_pos rfl)
  have hdeclared : (e.apply (track e.name pre)).info.declaration.isSome := by
    cases hpre : (track e.name pre).info.declaration with
    | some d =>
        rw [(Event.sameDeclaration_apply (by rw [hpre]; rfl) e).declaration, hpre]
        rfl
    | none =>
        have happly := Event.declaration_apply_of_none hpre e
        obtain ⟨b, hb⟩ := Option.isSome_iff_exists.mp hb
        rw [hb] at happly
        rw [happly.1]
        rfl
  rw [hsplit, assignments_trackFrom hdeclared] at h
  have hcount : post.countP (·.isAssignOf e.name) = 0 := by omega
  simpa [List.countP_eq_zero] using hcount

/-! ## Targets -/

theorem eq_name_of_name? {e : Expr} {n : String} (h : e.name? = some n) : e = .name n := by
  cases e with
  | name m =>
      cases h
      rfl
  | _ => contradiction

/-- A target that is no name is read. -/
theorem targetsEvents_cons {e : Expr} (h : e.name? = none) (place : Place) (id : NodeId)
    (vs : List (Option Expr)) (es : List Expr) (next : Nat) :
    targetsEvents place id vs (e :: es) next =
      ((exprEvents place e next).1 ++
          (targetsEvents place id (vs.drop 1) es (exprEvents place e next).2).1,
        (targetsEvents place id (vs.drop 1) es (exprEvents place e next).2).2) := by
  cases e with
  | name n => simp [Expr.name?] at h
  | _ => rfl

end Usage

end Devirt
