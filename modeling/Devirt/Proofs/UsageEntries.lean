import Devirt.Proofs.Mentions

set_option autoImplicit false

/-! # What the usage table says, told by mentions

An entry of the table is told by the mentions of its name alone (`Summarizes`): the reads, the first
binding, the assignments behind it, and whether some use lies before it or outside its block
(`summarizes_usage`).

The table is made of events, which carry numbers of blocks; mentions carry addresses.  Both are laid out
side by side (`Layout`): one place begins another exactly if the one address begins the other, since the
passages of a block have different indices, and the blocks in them different numbers. -/

namespace Devirt

namespace Usage

/-! ## Numbers and addresses of blocks -/

/-- The event of a mention below a place, in the blocks of the given numbers. -/
def placedEvent (place : Place) (p : Mention × Place) : Event :=
  p.1.role.event p.1.name (place ++ p.2)

/-- Mentions, in blocks below the passages from `k` to `k'`, side by side with events, in blocks with
numbers from `next` on. -/
structure Layout (place : Place) (k k' next : Nat) (ms : List Mention) (r : List Event × Nat)
    (ps : List (Mention × Place)) : Prop where
  mentions : ps.map Prod.fst = ms
  events : ps.map (placedEvent place) = r.1
  numbers : next ≤ r.2
  heads : ∀ p ∈ ps, p.1.block = [] ∧ p.2 = [] ∨ ∃ i address j numbers, p.1.block = i :: address ∧
    p.2 = j :: numbers ∧ k ≤ i ∧ i < k' ∧ next ≤ j ∧ j < r.2
  nested : ∀ p ∈ ps, ∀ q ∈ ps, p.2 <+: q.2 ↔ p.1.block <+: q.1.block

namespace Layout

variable {place : Place} {k k' k'' next : Nat} {ms ms' : List Mention} {r r' : List Event × Nat}
  {ps qs : List (Mention × Place)}

theorem nil : Layout place k k next [] ([], next) [] where
  mentions := rfl
  events := rfl
  numbers := le_rfl
  heads := by simp
  nested := by simp

theorem mention (n : String) (role : Role) :
    Layout place k (k + 1) next [⟨n, role, []⟩] ([role.event n place], next)
      [(⟨n, role, []⟩, [])] where
  mentions := rfl
  events := by simp [placedEvent]
  numbers := le_rfl
  heads := by simp
  nested := by simp

/-- What is laid out in a block is laid out one level deeper in the block around it. -/
theorem block (h : Layout (place ++ [next]) 0 k' (next + 1) ms r ps) :
    Layout place k (k + 1) next (ms.map (Mention.within k)) r
      (ps.map fun p => (p.1.within k, next :: p.2)) where
  mentions := by
    rw [← h.mentions, List.map_map, List.map_map]
    rfl
  events := by
    rw [← h.events, List.map_map]
    refine List.map_congr_left fun p _ => ?_
    simp [placedEvent, Mention.within]
  numbers := Nat.le_of_succ_le h.numbers
  heads := by
    have hlt : next < r.2 := h.numbers
    refine List.forall_mem_map.mpr fun p _ => ?_
    exact .inr ⟨k, p.1.block, next, p.2, rfl, rfl, le_rfl, Nat.lt_succ_self k, le_rfl, hlt⟩
  nested := by
    refine List.forall_mem_map.mpr fun p hp => List.forall_mem_map.mpr fun q hq => ?_
    simp only [Mention.within, List.cons_prefix_cons, true_and]
    exact h.nested p hp q hq

/-- What is laid out on the left lies in other blocks than what is laid out on the right. -/
theorem append (h : Layout place k k' next ms r ps) (h' : Layout place k' k'' r.2 ms' r' qs)
    (hk : k ≤ k') (hk' : k' ≤ k'') :
    Layout place k k'' next (ms ++ ms') (r.1 ++ r'.1, r'.2) (ps ++ qs) where
  mentions := by rw [List.map_append, h.mentions, h'.mentions]
  events := by rw [List.map_append, h.events, h'.events]
  numbers := h.numbers.trans h'.numbers
  heads := by
    have hle : r.2 ≤ r'.2 := h'.numbers
    have hge := h.numbers
    refine List.forall_mem_append.mpr ⟨fun p hp => ?_, fun p hp => ?_⟩
    · rcases h.heads p hp with hnil | ⟨i, address, j, numbers, hb, hq, hi, hi', hj, hj'⟩
      · exact .inl hnil
      · exact .inr ⟨i, address, j, numbers, hb, hq, hi, by omega, hj, by simp only; omega⟩
    · rcases h'.heads p hp with hnil | ⟨i, address, j, numbers, hb, hq, hi, hi', hj, hj'⟩
      · exact .inl hnil
      · exact .inr ⟨i, address, j, numbers, hb, hq, by omega, hi', by omega, hj'⟩
  nested := by
    -- of two blocks on different sides neither lies in the other, since both heads differ
    have hcross : ∀ p ∈ ps, ∀ q ∈ qs, (p.2 <+: q.2 ↔ p.1.block <+: q.1.block) ∧
        (q.2 <+: p.2 ↔ q.1.block <+: p.1.block) := by
      intro p hp q hq
      rcases h.heads p hp with ⟨hpb, hp2⟩ | ⟨i, address, j, numbers, hpb, hp2, -, hi, -, hj⟩
      · rcases h'.heads q hq with ⟨hqb, hq2⟩ | ⟨i', address', j', numbers', hqb, hq2, -⟩
        · simp [hpb, hp2, hqb, hq2]
        · simp [hpb, hp2, hqb, hq2]
      · rcases h'.heads q hq with ⟨hqb, hq2⟩ | ⟨i', address', j', numbers', hqb, hq2, hi', -, hj', -⟩
        · simp [hpb, hp2, hqb, hq2]
        · have hne : i ≠ i' := by omega
          have hne' : j ≠ j' := by omega
          simp [hpb, hp2, hqb, hq2, List.cons_prefix_cons, hne, hne', hne.symm, hne'.symm]
    refine List.forall_mem_append.mpr ⟨fun p hp => ?_, fun p hp => ?_⟩
    · exact List.forall_mem_append.mpr ⟨h.nested p hp, fun q hq => (hcross p hp q hq).1⟩
    · exact List.forall_mem_append.mpr ⟨fun q hq => (hcross q hq p hp).2, h'.nested p hp⟩

end Layout

mutual

theorem exists_layout_passage : (x : Passage) → ∀ place k next, ∃ ps,
    Layout place k (k + 1) next (passageMentions k x) (passageEvents place x next) ps
  | .mention n role, _, _, _ => ⟨_, .mention n role⟩
  | .block inside, place, k, next => by
      obtain ⟨ps, hps⟩ := exists_layout inside (place ++ [next]) 0 (next + 1)
      exact ⟨_, hps.block⟩

/-- The mentions in passages and their events are laid out side by side. -/
theorem exists_layout : (xs : List Passage) → ∀ place k next, ∃ ps,
    Layout place k (k + xs.length) next (passagesMentions k xs) (passagesEvents place xs next) ps
  | [], _, _, _ => ⟨[], .nil⟩
  | x :: xs, place, k, next => by
      obtain ⟨ps, hps⟩ := exists_layout_passage x place k next
      obtain ⟨qs, hqs⟩ := exists_layout xs place (k + 1) (passageEvents place x next).2
      have happend := hps.append hqs (by omega) (by omega)
      rw [show k + 1 + xs.length = k + (x :: xs).length by rw [List.length_cons]; omega] at happend
      exact ⟨ps ++ qs, happend⟩

end

/-! ## The entry of a name, told by events -/

/-- The event uses the name outside the block `home`. -/
def Event.leaves (n : String) (home : Place) : Event → Bool
  | read m place | assign m place _ _ => m == n && !home.isPrefixOf place
  | _ => false

/-- No binding was seen so far. -/
structure Tracked.Unbound (t : Tracked) : Prop where
  declaration : t.info.declaration = none
  value : t.info.value = none
  home : t.home = none
  assignments : t.info.assignments = 0
  escapes : t.info.escapes = false

theorem Tracked.unbound_fresh : fresh.Unbound := ⟨rfl, rfl, rfl, rfl, rfl⟩

theorem Event.unbound_apply {t : Tracked} (h : t.Unbound) {e : Event} (he : e.binding? = none) :
    (e.apply t).Unbound := by
  cases e with
  | read m place =>
      have hread : t.read place = { t with info := { t.info with reads := t.info.reads + 1 } } := by
        simp [Tracked.read, Tracked.usedAt, h.home]
      rw [Event.apply, hread]
      exact ⟨h.declaration, h.value, h.home, h.assignments, h.escapes⟩
  | introduce m => exact h
  | _ => contradiction

theorem unbound_trackFrom {n : String} {t : Tracked} (h : t.Unbound) {es : List Event}
    (hes : ∀ e ∈ es, e.name = n → e.binding? = none) : (trackFrom n t es).Unbound := by
  induction es generalizing t with
  | nil => exact h
  | cons e es ih =>
      obtain ⟨he, hes⟩ := List.forall_mem_cons.mp hes
      rw [trackFrom_cons]
      split
      · rename_i hname
        exact ih (Event.unbound_apply h (he hname)) hes
      · exact ih h hes

theorem Tracked.escapes_usedAt_eq {t : Tracked} {home : Place} (hh : t.home = some home)
    (place : Place) : (t.usedAt place).info.escapes = (t.info.escapes || !home.isPrefixOf place) := by
  unfold usedAt
  rw [hh]
  simp only
  split
  · rename_i hin
    simp [hin]
  · rename_i hout
    simp [hout]

theorem Event.escapes_apply_eq {t : Tracked} {home : Place} (hd : t.info.declaration.isSome)
    (hh : t.home = some home) (e : Event) :
    (e.apply t).info.escapes = (t.info.escapes || e.leaves e.name home) := by
  cases e with
  | read m place =>
      rw [Event.apply, Tracked.read, Tracked.escapes_usedAt_eq (by exact hh)]
      simp [leaves, Event.name]
  | declare m place id value => simp [Event.apply, Tracked.declare, hd, leaves]
  | assign m place id value =>
      rw [Event.apply, Tracked.assign, if_pos hd, Tracked.escapes_usedAt_eq (by exact hh)]
      simp [leaves, Event.name]
  | introduce m => simp [Event.apply, leaves]

theorem Event.leaves_of_name_ne {n : String} {home : Place} {e : Event} (h : e.name ≠ n) :
    e.leaves n home = false := by
  cases e <;> simp_all [leaves, Event.name]

/-- Once a name is declared, it escapes with the first use outside the block of the declaration. -/
theorem escapes_trackFrom_eq {n : String} {t : Tracked} {home : Place}
    (hd : t.info.declaration.isSome) (hh : t.home = some home) (es : List Event) :
    (trackFrom n t es).info.escapes = (t.info.escapes || es.any (·.leaves n home)) := by
  induction es generalizing t with
  | nil => simp [trackFrom]
  | cons e es ih =>
      rw [trackFrom_cons, List.any_cons]
      split
      · rename_i hname
        subst hname
        have hsame := Event.sameDeclaration_apply hd e
        rw [ih (by rw [hsame.declaration]; exact hd) (by rw [hsame.home]; exact hh),
          Event.escapes_apply_eq hd hh, Bool.or_assoc]
      · rename_i hname
        rw [ih hd hh, Event.leaves_of_name_ne hname, Bool.false_or]

/-- The first binding starts the count of assignments. -/
theorem Event.assignments_apply_of_none {t : Tracked} (h : t.info.declaration = none) (e : Event) :
    (e.apply t).info.assignments = t.info.assignments := by
  cases e with
  | read m place => exact Tracked.assignments_usedAt _ place
  | declare m place id value => simp [Event.apply, Tracked.declare, h]
  | assign m place id value => simp [Event.apply, Tracked.assign, Tracked.declare, h]
  | introduce m => rfl

/-- The entry of a name that some event binds, told by the first event that does. -/
theorem info_of_first_binding {n : String} {pre : List Event} {e : Event} {home : Place}
    {id : NodeId} {value : Option Expr} (hpre : ∀ e' ∈ pre, e'.name = n → e'.binding? = none)
    (hname : e.name = n) (hbinding : e.binding? = some (home, id, value)) (post : List Event) :
    (track n (pre ++ e :: post)).info.declaration = some id ∧
      (track n (pre ++ e :: post)).info.value = value ∧
      (track n (pre ++ e :: post)).info.assignments = post.countP (·.isAssignOf n) ∧
      (track n (pre ++ e :: post)).info.escapes
        = (pre.any (·.isReadOf n) || post.any (·.leaves n home)) := by
  have hsplit : track n (pre ++ e :: post) = trackFrom n (e.apply (track n pre)) post := by
    rw [track, trackFrom_append, trackFrom_cons, if_pos hname]
    rfl
  -- before the binding reads are counted and nothing else; behind it the declaration stays as it is
  have hunbound : (track n pre).Unbound := unbound_trackFrom Tracked.unbound_fresh hpre
  have happly := Event.declaration_apply_of_none hunbound.declaration e
  rw [hbinding] at happly
  obtain ⟨hdecl, hvalue, hhome, hescapes⟩ := happly
  have hdeclared : (e.apply (track n pre)).info.declaration.isSome := by
    rw [hdecl]
    rfl
  have hsame := sameDeclaration_trackFrom (n := n) hdeclared post
  have hreads : decide (0 < (track n pre).info.reads) = pre.any (·.isReadOf n) := by
    rw [reads_track, Bool.eq_iff_iff, decide_eq_true_eq, List.countP_pos_iff, List.any_eq_true]
  rw [hsplit]
  refine ⟨hsame.declaration.trans hdecl, hsame.value.trans hvalue, ?_, ?_⟩
  · rw [assignments_trackFrom hdeclared, Event.assignments_apply_of_none hunbound.declaration,
      hunbound.assignments, Nat.zero_add]
  · rw [escapes_trackFrom_eq hdeclared hhome, hescapes, hunbound.escapes, Bool.false_or, hreads]

/-! ## The entry of a name, told by mentions -/

section

variable (place : Place) (p : Mention × Place) (n : String)

theorem name_placedEvent : (placedEvent place p).name = p.1.name := by
  unfold placedEvent
  cases p.1.role with
  | bind t => cases ht : t.assigns <;> simp [Role.event, ht, Event.name]
  | _ => rfl

theorem isReadOf_placedEvent : (placedEvent place p).isReadOf n = p.1.isReadOf n := by
  unfold placedEvent Mention.isReadOf
  cases p.1.role with
  | bind t => cases ht : t.assigns <;> simp [Role.event, ht, Event.isReadOf]
  | _ => rfl

theorem isAssignOf_placedEvent : (placedEvent place p).isAssignOf n = p.1.isAssignOf n := by
  unfold placedEvent Mention.isAssignOf
  cases p.1.role with
  | bind t => cases ht : t.assigns <;> simp [Role.event, ht, Event.isAssignOf]
  | _ => rfl

theorem binding?_placedEvent_of_bind {t : Target} (h : p.1.role = .bind t) :
    (placedEvent place p).binding? = some (place ++ p.2, t.id, t.value) := by
  unfold placedEvent
  rw [h]
  cases ht : t.assigns <;> simp [Role.event, ht, Event.binding?]

theorem binding?_placedEvent_eq_none (h : p.1.isBindingOf p.1.name = false) :
    (placedEvent place p).binding? = none := by
  unfold placedEvent
  unfold Mention.isBindingOf at h
  cases hr : p.1.role with
  | bind t => simp [hr] at h
  | _ => rfl

theorem leaves_placedEvent (home : Place) :
    (placedEvent place p).leaves n (place ++ home)
      = ((p.1.isReadOf n || p.1.isAssignOf n) && !home.isPrefixOf p.2) := by
  have hprefix : (place ++ home).isPrefixOf (place ++ p.2) = home.isPrefixOf p.2 := by
    rw [Bool.eq_iff_iff, List.isPrefixOf_iff_prefix, List.isPrefixOf_iff_prefix,
      List.prefix_append_right_inj]
  unfold placedEvent Mention.isReadOf Mention.isAssignOf
  cases p.1.role with
  | bind t => cases ht : t.assigns <;> simp [Role.event, ht, Event.leaves, hprefix]
  | _ => simp [Role.event, Event.leaves, hprefix]

end

/-- What is known of a name is what its mentions say. -/
structure Summarizes (ms : List Mention) (n : String) (v : Variable) : Prop where
  /-- The name is read wherever it is mentioned as an expression. -/
  reads : v.reads = ms.countP (·.isReadOf n)
  /-- Of a name that is never bound nothing else is known. -/
  unbound : (∀ m ∈ ms, m.isBindingOf n = false) →
    v.declaration = none ∧ v.value = none ∧ v.assignments = 0 ∧ v.escapes = false
  /-- The first binding is the declaration.  Assignments behind it are counted, and the name escapes if
  it is read before, or read or assigned behind it outside the block of the declaration. -/
  bound : ∀ (pre : List Mention) (m : Mention) (t : Target) (post : List Mention),
    ms = pre ++ m :: post → (∀ m' ∈ pre, m'.isBindingOf n = false) → m.name = n → m.role = .bind t →
    v.declaration = some t.id ∧ v.value = t.value ∧
      (v.value.isSome = true ↔ t.width = t.values.length) ∧
      v.assignments = post.countP (·.isAssignOf n) ∧
      (v.escapes = true ↔ (∃ m' ∈ pre, m'.isReadOf n = true) ∨
        ∃ m' ∈ post, (m'.isReadOf n = true ∨ m'.isAssignOf n = true) ∧ ¬ m.block <+: m'.block)

/-- The variable that events make of a name is told by the mentions that are laid out beside them. -/
theorem Layout.summarizes {place : Place} {k k' next : Nat} {ms : List Mention}
    {r : List Event × Nat} {ps : List (Mention × Place)} (h : Layout place k k' next ms r ps)
    (n : String) : Summarizes ms n (track n r.1).info := by
  -- each event is the event of the mention beside it, so a split of the one list splits the other
  obtain ⟨rfl, hevents, -, -, hnested⟩ := h
  rw [← hevents]
  have hbinding : ∀ qs : List (Mention × Place),
      (∀ m ∈ qs.map Prod.fst, m.isBindingOf n = false) →
      ∀ e ∈ qs.map (placedEvent place), e.name = n → e.binding? = none := by
    intro qs hqs
    refine List.forall_mem_map.mpr fun q hq hname => binding?_placedEvent_eq_none place q ?_
    rw [name_placedEvent] at hname
    rw [hname]
    exact hqs q.1 (List.mem_map_of_mem hq)
  refine ⟨?_, fun hms => ?_, fun pre m t post hsplit hpre hname hrole => ?_⟩
  · rw [reads_track, List.countP_map, List.countP_map]
    exact List.countP_congr fun p _ => by simp [isReadOf_placedEvent]
  · have hunbound : (track n (ps.map (placedEvent place))).Unbound :=
      unbound_trackFrom Tracked.unbound_fresh (hbinding ps hms)
    exact ⟨hunbound.declaration, hunbound.value, hunbound.assignments, hunbound.escapes⟩
  · obtain ⟨ps₁, ps₂, rfl, rfl, htail⟩ := List.map_eq_append_iff.mp hsplit
    obtain ⟨p, ps₃, rfl, rfl, rfl⟩ := List.map_eq_cons_iff.mp htail
    rw [List.map_append, List.map_cons]
    obtain ⟨hdeclaration, hvalue, hassignments, hescapes⟩ :=
      info_of_first_binding (hbinding ps₁ hpre) ((name_placedEvent place p).trans hname)
        (binding?_placedEvent_of_bind place p hrole) (ps₃.map (placedEvent place))
    refine ⟨hdeclaration, hvalue, ?_, ?_, ?_⟩
    · rw [hvalue]
      exact Target.isSome_value
    · rw [hassignments, List.countP_map, List.countP_map]
      exact List.countP_congr fun p _ => by simp [isAssignOf_placedEvent]
    · have houtside : ∀ q ∈ ps₃, (placedEvent place q).leaves n (place ++ p.2) = true ↔
          (q.1.isReadOf n = true ∨ q.1.isAssignOf n = true) ∧ ¬ p.1.block <+: q.1.block := by
        intro q hq
        rw [leaves_placedEvent, Bool.and_eq_true, Bool.or_eq_true, Bool.not_eq_true',
          ← Bool.not_eq_true, List.isPrefixOf_iff_prefix, hnested p (by simp) q (by simp [hq])]
      rw [hescapes, Bool.or_eq_true]
      simp only [List.any_map, List.any_eq_true, Function.comp_apply, isReadOf_placedEvent,
        List.mem_map, exists_exists_and_eq_and]
      exact or_congr Iff.rfl (exists_congr fun q => and_congr_right fun hq => houtside q hq)

theorem Layout.exists_name_iff {place : Place} {k k' next : Nat} {ms : List Mention}
    {r : List Event × Nat} {ps : List (Mention × Place)} (h : Layout place k k' next ms r ps)
    (n : String) : (∃ e ∈ r.1, e.name = n) ↔ ∃ m ∈ ms, m.name = n := by
  rw [← h.events, ← h.mentions]
  simp only [List.mem_map, exists_exists_and_eq_and, name_placedEvent]

/-- A name is in the usage table of a block exactly if it is mentioned there, as an expression, as a target
or as a loop variable or parameter, and its entry says what its mentions say. -/
theorem summarizes_usage (b : Block) (n : String) :
    ((b.usage.get? n).isSome = true ↔ ∃ m ∈ b.mentions, m.name = n) ∧
      ∀ v, b.usage.get? n = some v → Summarizes b.mentions n v := by
  obtain ⟨ps, hps⟩ := exists_layout (stmtsPassages b) [0] 0 1
  have hentry : b.usage.get? n = if ∃ m ∈ b.mentions, m.name = n
      then some (track n (events b)).info else none := by
    rw [Block.usage, get?_tabulate, events_eq]
    simp only [hps.exists_name_iff n]
    rfl
  constructor
  · rw [hentry]
    split
    · rename_i hmention
      simp [hmention]
    · rename_i hmention
      simp [hmention]
  · intro v hv
    rw [hentry] at hv
    split at hv
    · obtain rfl := Option.some.inj hv
      rw [events_eq]
      exact hps.summarizes n
    · contradiction

/-- `repeat local x = a until x` and then `x = nil`: the condition is in the scope of the `local`, the
assignment is not. -/
theorem summarizes_usage_repeat :
    let b : Block :=
      [.repeatLoop [.declare 1 ["x"] [.name "a"]] (.name "x"), .assign 2 [.name "x"] [.nil]]
    ∃ v, b.usage.get? "x" = some v ∧ Summarizes b.mentions "x" v := by
  intro b
  have hmention : ∃ m ∈ b.mentions, m.name = "x" :=
    ⟨⟨"x", .read, [0]⟩, by simp [b, Block.mentions, stmtsPassages, stmtPassages, exprsPassages,
      exprPassages, namesPassages, targetsPassages, passagesMentions, passageMentions,
      Mention.within], rfl⟩
  obtain ⟨v, hv⟩ := Option.isSome_iff_exists.mp ((summarizes_usage b "x").1.mpr hmention)
  exact ⟨v, hv, (summarizes_usage b "x").2 v hv⟩

end Usage

end Devirt
