import Devirt.Proofs.Fixpoint
import Devirt.Proofs.Fuel
import Devirt.Proofs.Ranking

set_option autoImplicit false

/-! # The standard pipeline comes to an end

Each replacement of the standard pipeline, without a mapping, makes the text lighter, because it
promotes an assignment or removes a declaration, or it is a sequence of moves (`Advances`).  So does a
whole walk that replaces something, and a whole round.  A text can become lighter only so often, and
in between the moves descend in the order of a ranking that stays fixed.  Hence there is no infinite
sequence of rounds (`acc_next`): a run that may go on for long enough converges, or is halted because
expressions nest too deep (`simplify_terminates`). -/

namespace Devirt

open Walk Ranking Usage

/-! ## What a replacement achieves -/

namespace Ranking

variable {xs₀ xs ys zs : List Mark}

/-- The text becomes lighter, or moves lead from one to the other. -/
def Advances (xs₀ xs ys : List Mark) : Prop :=
  weight ys < weight xs ∨ Relation.TransGen (Move xs₀) xs ys

theorem weight_moves (h : Relation.TransGen (Move xs₀) xs ys) : weight ys = weight xs := by
  induction h with
  | single h => exact weight_move h
  | tail _ h ih => rw [weight_move h, ih]

namespace Advances

theorem of_move (h : Move xs₀ xs ys) : Advances xs₀ xs ys := .inr (.single h)

theorem weight_le (h : Advances xs₀ xs ys) : weight ys ≤ weight xs := by
  rcases h with h | h
  · exact Nat.le_of_lt h
  · exact (weight_moves h).le

theorem trans (h : Advances xs₀ xs ys) (h' : Advances xs₀ ys zs) : Advances xs₀ xs zs := by
  have hle := h'.weight_le
  rcases h with h | h
  · exact .inl (Nat.lt_of_le_of_lt hle h)
  · rcases h' with h' | h'
    · rw [weight_moves h] at h'
      exact .inl h'
    · exact .inr (h.trans h')

end Advances

theorem closed_advances (xs₀ : List Mark) : Closed (Advances xs₀) where
  left zs xs ys h := by
    rcases h with h | h
    · refine .inl ?_
      rw [weight_append, weight_append]
      omega
    · exact .inr (h.lift (zs ++ ·) fun _ _ => (closed_move xs₀).left zs)
  right zs xs ys h := by
    rcases h with h | h
    · refine .inl ?_
      rw [weight_append, weight_append]
      omega
    · exact .inr (h.lift (· ++ zs) fun _ _ => (closed_move xs₀).right zs)

/-- The text becomes lighter, or descends in the order of a ranking that still ranks it. -/
def Drops (ρ : String → Nat) (xs ys : List Mark) : Prop :=
  weight ys < weight xs ∨
    weight ys ≤ weight xs ∧ Ordered ρ ys ∧ Relation.TransGen (Smaller ρ) ys xs

variable {ρ : String → Nat}

theorem Drops.weight_le (h : Drops ρ xs ys) : weight ys ≤ weight xs := by
  rcases h with h | h
  · exact Nat.le_of_lt h
  · exact h.1

theorem kept_moves (hord : Ordered ρ xs₀) (hkept : Kept ρ xs₀ xs)
    (h : Relation.TransGen (Move xs₀) xs ys) :
    Kept ρ xs₀ ys ∧ Relation.TransGen (Smaller ρ) ys xs := by
  induction h with
  | single h =>
      obtain ⟨hkept', hsmaller⟩ := descends_move hord hkept h
      exact ⟨hkept', .single hsmaller⟩
  | tail _ h ih =>
      obtain ⟨hkept', hsmaller⟩ := descends_move hord ih.1 h
      exact ⟨hkept', .head hsmaller ih.2⟩

theorem drops_of_advances (hord : Ordered ρ xs) (h : Advances xs xs ys) : Drops ρ xs ys := by
  have hle := h.weight_le
  rcases h with h | h
  · exact .inl h
  · obtain ⟨hkept, hsmaller⟩ := kept_moves hord (kept_self hord) h
    exact .inr ⟨hle, ordered_of_kept hkept, hsmaller⟩

end Ranking

/-! ## Folding -/

namespace Folding

/-- Anything but a literal has a mark that is no number. -/
theorem exists_mark_of_not_literal {e : Expr} (h : e.isLiteral = false) :
    false ∈ (exprMarks e).map (· == .number) := by
  cases e <;> simp_all [Expr.isLiteral, exprMarks]

theorem lex_of_mem {xs : List Bool} (h : false ∈ xs) (ys : List Bool) :
    List.Lex (· < ·) (xs ++ true :: ys) (true :: (xs ++ ys)) := by
  induction xs with
  | nil => simp at h
  | cons x xs ih =>
      cases x with
      | false => exact .rel rfl
      | true => exact .cons (ih (by simpa using h))

theorem entriesMarks_of_isArray {entries : List Entry} (h : IsArray entries) :
    ∀ x ∈ entriesMarks entries, x = .number := by
  induction entries with
  | nil => simp [entriesMarks]
  | cons e entries ih =>
      obtain ⟨⟨v, rfl, hv, hnil⟩, htail⟩ := List.forall_mem_cons.mp h
      rw [entriesMarks, List.forall_mem_append]
      refine ⟨fun x hx => ?_, ih htail⟩
      cases v <;> simp_all [Expr.isLiteral, exprMarks]

theorem folds_marks {e e' : Expr} (h : FoldsTo e e') : Folds (exprMarks e) (exprMarks e') := by
  cases h with
  | negation x => exact ⟨rfl, rfl, .of_length_lt (by simp [exprMarks])⟩
  | @length entries hall =>
      have hnumbers := entriesMarks_of_isArray hall
      have hnames : (entriesMarks entries).filter Mark.isName = [] := by
        rw [List.filter_eq_nil_iff]
        intro x hx
        rw [hnumbers x hx]
        decide
      have hweight : weight (entriesMarks entries) = 0 := by
        refine weight_of_plain fun x hx => ?_
        rw [hnumbers x hx]
        rfl
      refine ⟨?_, ?_, .of_length_lt (by simp [exprMarks])⟩
      · simp only [exprMarks, List.filter_append, hnames]
        rfl
      · simp only [exprMarks, weight_append, hweight]
        rfl
  | comparison hop hr =>
      refine ⟨?_, ?_, .of_lex (by simp [exprMarks]) ?_⟩
      · simp [exprMarks, Mark.isName]
      · simp only [exprMarks, weight_append]
        omega
      · have hmark := exists_mark_of_not_literal hr
        simpa [exprMarks] using lex_of_mem hmark [Mark.node == .number]

theorem answers (xs₀ : List Mark) : Answers pass (Advances xs₀) where
  expr e e' h := by
    have hfolds := foldsTo_of_onExpr h
    have hname : e'.name? = none := by cases hfolds <;> rfl
    exact ⟨hname, .of_move (.fold (folds_marks hfolds))⟩
  stmt s s' h := by cases s <;> contradiction
  block b b' h := by contradiction

end Folding

/-! ## Collapsing temporaries -/

mutual

/-- Without blocks there are neither bindings nor binding statements. -/
theorem isPlain_expr : (e : Expr) → exprBlocks e = 0 → ∀ x ∈ exprMarks e, x.isPlain = true
  | .nil, _ | .bool _, _ | .string _, _ => by simp [exprMarks]
  | .number _, _ | .vararg, _ | .name _, _ => by simp [exprMarks, Mark.isPlain]
  | .binary _ l r, h => by
      simp only [exprBlocks, Nat.max_eq_zero_iff] at h
      have hl := isPlain_expr l h.1
      have hr := isPlain_expr r h.2
      simp only [exprMarks, List.forall_mem_append]
      exact ⟨⟨hl, hr⟩, by simp [Mark.isPlain]⟩
  | .unary _ e, h | .member e _, h => by
      have he := isPlain_expr e h
      simp only [exprMarks, List.forall_mem_append]
      exact ⟨he, by simp [Mark.isPlain]⟩
  | .index t k, h => by
      simp only [exprBlocks, Nat.max_eq_zero_iff] at h
      have ht := isPlain_expr t h.1
      have hk := isPlain_expr k h.2
      simp only [exprMarks, List.forall_mem_append]
      exact ⟨⟨ht, hk⟩, by simp [Mark.isPlain]⟩
  | .call f args, h => by
      simp only [exprBlocks, Nat.max_eq_zero_iff] at h
      have hf := isPlain_expr f h.1
      have hargs := isPlain_exprs args h.2
      simp only [exprMarks, List.forall_mem_append]
      exact ⟨⟨hf, hargs⟩, by simp [Mark.isPlain]⟩
  | .table entries, h => by
      have hentries := isPlain_entries entries h
      simp only [exprMarks, List.forall_mem_append]
      exact ⟨hentries, by simp [Mark.isPlain]⟩
  | .function .., h => by simp [exprBlocks] at h

theorem isPlain_exprs : (es : List Expr) → exprsBlocks es = 0 →
    ∀ x ∈ exprsMarks es, x.isPlain = true
  | [], _ => by simp [exprsMarks]
  | e :: es, h => by
      simp only [exprsBlocks, Nat.max_eq_zero_iff] at h
      have he := isPlain_expr e h.1
      have hes := isPlain_exprs es h.2
      simp only [exprsMarks, List.forall_mem_append]
      exact ⟨he, hes⟩

theorem isPlain_entries : (es : List Entry) → entriesBlocks es = 0 →
    ∀ x ∈ entriesMarks es, x.isPlain = true
  | [], _ => by simp [entriesMarks]
  | .positional v :: es, h => by
      simp only [entriesBlocks, Nat.max_eq_zero_iff] at h
      have hv := isPlain_expr v h.1
      have hes := isPlain_entries es h.2
      simp only [entriesMarks, List.forall_mem_append]
      exact ⟨hv, hes⟩
  | .keyed k v :: es, h => by
      simp only [entriesBlocks, Nat.max_eq_zero_iff] at h
      have hk := isPlain_expr k h.1.1
      have hv := isPlain_expr v h.1.2
      have hes := isPlain_entries es h.2
      simp only [entriesMarks, List.forall_mem_append]
      exact ⟨⟨hk, hv⟩, hes⟩

end

/-! ### What the table knows of the text -/

theorem exists_read_of_readsBefore {m n : String} {es : List Event}
    (h : m ∈ readsBefore n (es.filterMap Event.mark?)) :
    ∃ pre place post, es = pre ++ .read m place :: post ∧
      ∀ e ∈ pre, e.name = n → e.binding? = none := by
  induction es with
  | nil => simp [readsBefore] at h
  | cons e es ih =>
      -- the read may be further on, after an event that does not bind `n`
      have hlater : m ∈ readsBefore n (es.filterMap Event.mark?) →
          (e.name = n → e.binding? = none) → ∃ pre place post, e :: es
            = pre ++ .read m place :: post ∧ ∀ e ∈ pre, e.name = n → e.binding? = none := by
        intro h he
        obtain ⟨pre, place, post, rfl, hpre⟩ := ih h
        exact ⟨e :: pre, place, post, rfl, List.forall_mem_cons.mpr ⟨he, hpre⟩⟩
      cases e with
      | read k place =>
          simp only [List.filterMap_cons, Event.mark?, readsBefore, reduceCtorEq, if_false,
            Mark.read?, Option.toList_some, List.singleton_append, List.mem_cons] at h
          rcases h with rfl | h
          · exact ⟨[], place, es, rfl, by simp⟩
          · exact hlater h fun _ => rfl
      | introduce k => exact hlater h fun _ => rfl
      | declare k place id value | assign k place id value =>
          simp only [List.filterMap_cons, Event.mark?, readsBefore, Mark.bind.injEq] at h
          split at h
          · simp at h
          · exact hlater h fun hk => absurd hk ‹_›

theorem readsBefore_events (b : Block) (n : String) :
    readsBefore n ((events b).filterMap Event.mark?) = readsBefore n b.marks := by
  rw [(echoes_block b).names, readsBefore_filter]

namespace Temporaries.Context

variable {options : Options} {b : Block}

/-- What stands for a temporary was read before the temporary was bound, and the temporary has not
been read by then. -/
theorem admits_of_substitute {e v : Expr}
    (h : (Context.mk options b.usage).substitute e = some v) :
    ∃ n, e = .name n ∧ Admits b.marks n (exprMarks v) := by
  obtain ⟨n, var, rfl, htemp, hvalue, hinline⟩ := substitute_eq_some h
  obtain ⟨-, hget, hescapes⟩ := temporary_eq_some.mp htemp
  obtain rfl := eq_track_of_get? hget
  obtain ⟨d, hd⟩ := declared_of_value hvalue
  refine ⟨n, rfl, ?_, ?_, ?_⟩
  · intro hearly
    rw [Early, ← readsBefore_events] at hearly
    obtain ⟨pre, place, post, hsplit, hpre⟩ := exists_read_of_readsBefore hearly
    rw [hsplit] at hd hescapes
    obtain ⟨ev, hev, home, hname, hbind, -⟩ := binding_before_read hd hescapes
    rw [hpre ev hev hname] at hbind
    contradiction
  · exact isPlain_expr v (exprBlocks_of_mentions v (mentions_of_inlinable hinline))
  · intro m hm
    obtain ⟨pre, ev, post, place, hsplit, hpre, hname, hbind, -⟩ := split_first_binding rfl hd
    have hsupplied := (echoes_block b).supplied
    rw [hsplit, Supplied.append_iff, List.nil_append] at hsupplied
    rw [show (trackFrom n .fresh (events b)).info.value = some v from hvalue] at hbind
    have hread := hsupplied.2.1 place d v hbind m hm
    have hfree : .bind n ∉ pre.filterMap Event.mark? := by
      intro hc
      obtain ⟨e', he', hmark⟩ := List.mem_filterMap.mp hc
      obtain ⟨hname', hbind'⟩ := mark?_eq_bind.mp hmark
      exact hbind' (hpre e' he' hname')
    rw [← readsBefore_events, hsplit, List.filterMap_append, readsBefore_append,
      readsBefore_of_not_mem hfree]
    exact List.mem_append_left _ (mem_reads.mpr hread)

/-! ### The hooks -/

theorem move_of_substitute {e v : Expr}
    (h : (Context.mk options b.usage).substitute e = some v) :
    Move b.marks (exprMarks e) (exprMarks v) := by
  obtain ⟨n, rfl, hadmits⟩ := admits_of_substitute h
  simpa [exprMarks] using Move.inline [] [] hadmits

theorem advances_pair {l r : Expr} {p : Expr × Expr}
    (h : (Context.mk options b.usage).substitutePair l r = some p) :
    Advances b.marks (exprMarks l ++ exprMarks r) (exprMarks p.1 ++ exprMarks p.2) := by
  have hA := closed_advances b.marks
  have hone := fun {e v : Expr} (he : (Context.mk options b.usage).substitute e = some v) =>
    Advances.of_move (move_of_substitute he)
  unfold substitutePair at h
  cases hl : (Context.mk options b.usage).substitute l with
  | none =>
      cases hr : (Context.mk options b.usage).substitute r with
      | none => simp [hl, hr] at h
      | some r' =>
          simp only [hl, hr, Option.some.injEq] at h
          rw [← h]
          exact hA.left _ (hone hr)
  | some l' =>
      cases hr : (Context.mk options b.usage).substitute r with
      | none =>
          simp only [hl, hr, Option.some.injEq] at h
          rw [← h]
          exact hA.right _ (hone hl)
      | some r' =>
          simp only [hl, hr, Option.some.injEq] at h
          rw [← h]
          exact (hA.right _ (hone hl)).trans (hA.left _ (hone hr))

theorem advances_call {f : Expr} {args : List Expr} {a : Expr × List Expr}
    (h : (Context.mk options b.usage).call f args = some a) :
    Advances b.marks (exprMarks f ++ exprsMarks args) (exprMarks a.1 ++ exprsMarks a.2) := by
  obtain ⟨l, r, p, rfl, hp, rfl⟩ := call_eq_some h
  simpa [exprsMarks] using (closed_advances b.marks).left (exprMarks f) (advances_pair hp)

theorem targetsMarks_of_declaredBy {c : Context} {id : NodeId} {targets : List Expr}
    (h : ∀ e ∈ targets, c.declaredBy id e = true) :
    targetsMarks targets = (targets.filterMap Expr.name?).map .bind := by
  induction targets with
  | nil => rfl
  | cons e targets ih =>
      obtain ⟨he, htargets⟩ := List.forall_mem_cons.mp h
      obtain ⟨n, v, rfl, -⟩ := declaredBy_eq_true he
      simp [targetsMarks, Expr.name?, ih htargets]

theorem advances_assign {id : NodeId} {targets values : List Expr} {s : Stmt}
    (h : (Context.mk options b.usage).assign id targets values = some s) :
    Advances b.marks (stmtMarks (.assign id targets values)) (stmtMarks s) := by
  have hA := closed_advances b.marks
  rcases assign_eq_some h with ⟨hall, rfl⟩ | ⟨t, v, v', rfl, rfl, hv, rfl⟩
  · refine .inl ?_
    rw [stmtMarks, stmtMarks, targetsMarks_of_declaredBy hall, weight_append _ [.declaration],
      weight_append _ [.assignment]]
    exact Nat.add_lt_add_left (by decide) _
  · have hvalue := Advances.of_move (move_of_substitute hv)
    exact hA.right _ (hA.right _ (hA.right _ hvalue))

theorem weight_filter (q : Stmt → Bool) (b : Block) :
    weight (stmtsMarks (b.filter q)) + weight (stmtsMarks (b.filter fun s => !q s))
      = weight (stmtsMarks b) := by
  induction b with
  | nil => rfl
  | cons s b ih =>
      rw [stmtsMarks, weight_append, ← ih]
      by_cases hq : q s
      · simp [hq, stmtsMarks, weight_append, Nat.add_assoc]
      · simp [hq, stmtsMarks, weight_append, Nat.add_left_comm]

theorem weight_le_of_mem {s : Stmt} {b : Block} (h : s ∈ b) :
    weight (stmtMarks s) ≤ weight (stmtsMarks b) := by
  induction b with
  | nil => simp at h
  | cons s' b ih =>
      rw [stmtsMarks, weight_append]
      rcases List.mem_cons.mp h with rfl | h
      · exact Nat.le_add_right ..
      · exact Nat.le_add_left_of_le (ih h)

/-- Dead declarations are removed with what they weigh. -/
theorem weight_block {c : Context} {b b' : Block} (h : c.block b = some b') :
    weight (stmtsMarks b') < weight (stmtsMarks b) := by
  unfold block at h
  split at h
  · rename_i hany
    obtain ⟨s, hs, hdead⟩ := List.any_eq_true.mp hany
    have hweight : 0 < weight (stmtMarks s) := by
      cases s with
      | declare id names values =>
          rw [stmtMarks, weight_append]
          exact Nat.lt_add_left _ (by decide)
      | _ => contradiction
    have hle := weight_le_of_mem (List.mem_filter.mpr ⟨hs, hdead⟩)
    have hsum := weight_filter c.isDeadStmt b
    rw [← Option.some.inj h]
    omega
  · contradiction

theorem answers (options : Options) (b : Block) :
    Answers (Context.mk options b.usage).pass (Advances b.marks) where
  expr e e' h := by
    have hA := closed_advances b.marks
    obtain ⟨l, r, p, hp, ⟨op, rfl, rfl⟩ | ⟨rfl, rfl⟩ | ⟨f, rfl, rfl⟩⟩ := onExpr_eq_some h
    · exact ⟨rfl, hA.right _ (advances_pair hp)⟩
    · exact ⟨rfl, hA.right _ (advances_pair hp)⟩
    · refine ⟨rfl, ?_⟩
      simpa [exprMarks, exprsMarks] using
        hA.right [.node] (hA.left (exprMarks f) (advances_pair hp))
  stmt s s' h := by
    cases s with
    | assign id targets values => exact advances_assign h
    | call f args =>
        obtain ⟨a, ha, rfl⟩ := Option.map_eq_some_iff.mp h
        exact advances_call ha
    | _ => contradiction
  block b₁ b₂ h := .inl (weight_block h)

end Temporaries.Context

/-! ## Walks and rounds -/

/-- Before each walk the stage prepares a pass whose replacements advance. -/
def Stage.Advancing (r : Stage) : Prop := ∀ b, Answers (r.prepare b) (Advances b.marks)

namespace Pipeline

variable {ρ : String → Nat} {rs : List Stage}

theorem advances_rewrites {p : Pass} {xs₀ : List Mark} (hp : Answers p (Advances xs₀)) {n : Nat}
    {b b' : Block} (h : Rewrites (BlockStep p) (n + 1) b b') :
    Advances xs₀ b.marks b'.marks := by
  induction n generalizing b with
  | zero =>
      cases h with
      | step hstep hrest =>
          rw [hrest.eq_of_zero]
          exact hp.block_step (closed_advances xs₀) hstep
  | succ n ih =>
      cases h with
      | step hstep hrest => exact (hp.block_step (closed_advances xs₀) hstep).trans (ih hrest)

/-- A walk leaves the block as it is, or drops. -/
theorem drops_walk {r : Stage} (hr : r.Advancing) {b : Block} (hord : Ordered ρ b.marks) :
    ((r.prepare b).walk b).2.replacements = 0 ∧ ((r.prepare b).walk b).1 = b ∨
      Drops ρ b.marks ((r.prepare b).walk b).1.marks := by
  have hsteps := (r.prepare b).walk_rewrites b
  cases hn : ((r.prepare b).walk b).2.replacements with
  | zero =>
      rw [hn] at hsteps
      exact .inl ⟨rfl, hsteps.eq_of_zero⟩
  | succ n =>
      rw [hn] at hsteps
      exact .inr (drops_of_advances hord (advances_rewrites (hr b) hsteps))

/-- A round that is not halted leaves the block as it is, or drops. -/
theorem drops_round (hrs : ∀ r ∈ rs, r.Advancing) {b b' : Block} {n n' : Nat}
    (hord : Ordered ρ b.marks) (h : round rs b n = (b', n', false)) :
    n' = n ∧ b' = b ∨ Drops ρ b.marks b'.marks := by
  induction rs generalizing b n ρ with
  | nil =>
      cases h
      exact .inl ⟨rfl, rfl⟩
  | cons r rs ih =>
      obtain ⟨hr, hrs⟩ := List.forall_mem_cons.mp hrs
      rw [round] at h
      simp only at h
      split at h
      · simp at h
      · rcases drops_walk hr hord with ⟨hzero, hsame⟩ | hdrop
        · rw [hzero, hsame] at h
          exact ih hrs hord h
        · refine .inr ?_
          -- what follows need not descend once the text is lighter, but it never gets heavier
          rcases hdrop with hlight | ⟨hle, hord', hsmaller⟩
          · obtain ⟨ρ', hord'⟩ := exists_ordered ((r.prepare b).walk b).1.marks
            have hrest : weight b'.marks ≤ weight ((r.prepare b).walk b).1.marks := by
              rcases ih hrs hord' h with ⟨-, rfl⟩ | hdrop
              · exact le_rfl
              · exact hdrop.weight_le
            exact .inl (Nat.lt_of_le_of_lt hrest hlight)
          · rcases ih hrs hord' h with ⟨-, rfl⟩ | hlight | ⟨hle', hord'', hsmaller'⟩
            · exact .inr ⟨hle, hord', hsmaller⟩
            · exact .inl (Nat.lt_of_lt_of_le hlight hle)
            · exact .inr ⟨hle'.trans hle, hord'', hsmaller'.trans hsmaller⟩

/-- `b'` is left by a round over `b` after which another one follows. -/
def Next (rs : List Stage) (b' b : Block) : Prop := ∃ n, round rs b 0 = (b', n + 1, false)

/-- There is no infinite sequence of rounds. -/
theorem acc_next (hrs : ∀ r ∈ rs, r.Advancing) (b : Block) : Acc (Next rs) b := by
  -- on the weight of the text; while it stays, on the order of one ranking
  induction hw : weight b.marks using Nat.strong_induction_on generalizing b with
  | h w ihw =>
      obtain ⟨ρ, hord⟩ := exists_ordered b.marks
      have hle : weight b.marks ≤ w := hw.le
      clear hw
      induction hxs : b.marks using (wellFounded_smaller ρ).transGen.induction generalizing b with
      | h xs ihx =>
          subst hxs
          refine Acc.intro b fun b' hnext => ?_
          obtain ⟨n, hround⟩ := hnext
          rcases drops_round hrs hord hround with ⟨hzero, -⟩ | hlight | ⟨hle', hord', hsmaller⟩
          · contradiction
          · exact ihw _ (Nat.lt_of_lt_of_le hlight hle) b' rfl
          · exact ihx _ hsmaller b' hord' (hle'.trans hle) rfl

/-! ## Runs -/

/-- A walk of the round is halted because expressions nest too deep. -/
def Abandons : List Stage → Block → Prop
  | [], _ => False
  | r :: rs, b =>
    ((r.prepare b).walk b).2.halt = some .nesting ∨
      ((r.prepare b).walk b).2.halt = none ∧ Abandons rs ((r.prepare b).walk b).1

/-- The block after `k` rounds. -/
def after (rs : List Stage) (k : Nat) (b : Block) : Block := (fun b => (round rs b 0).1)^[k] b

theorem abandons_of_halted (hflat : ∀ r ∈ rs, ∀ b, (r.prepare b).Flat) {b b' : Block}
    {n n' : Nat} (h : round rs b n = (b', n', true)) : Abandons rs b := by
  induction rs generalizing b n with
  | nil => cases h
  | cons r rs ih =>
      obtain ⟨hr, hrs⟩ := List.forall_mem_cons.mp hflat
      rw [round] at h
      simp only at h
      rcases Pass.halt_walk (hr b) b with hnone | hnesting
      · rw [if_neg (by simp [Progress.halted, hnone])] at h
        exact .inr ⟨hnone, ih hrs h⟩
      · exact .inl hnesting

/-- Rounds without an infinite sequence converge, or one of them is abandoned. -/
theorem rounds_end (hflat : ∀ r ∈ rs, ∀ b, (r.prepare b).Flat) {b : Block}
    (h : Acc (Next rs) b) :
    ∃ N, ∀ limit, N ≤ limit → ∀ report, (rounds rs limit b report).2.converged = true ∨
      ∃ k < N, (rounds rs limit b report).2.iterations = report.iterations + (k + 1) ∧
        Abandons rs (after rs k b) := by
  induction h with
  | intro b _ ih =>
      rcases hround : round rs b 0 with ⟨b', n, halted⟩
      have hsucc := rounds_succ hround
      cases halted with
      | true =>
          refine ⟨1, fun limit hlimit report => .inr ⟨0, Nat.one_pos, ?_, ?_⟩⟩
          · obtain ⟨limit, rfl⟩ := Nat.exists_eq_add_one.mpr hlimit
            rw [hsucc]
            rfl
          · exact abandons_of_halted hflat hround
      | false =>
          cases n with
          | zero =>
              refine ⟨1, fun limit hlimit report => .inl ?_⟩
              obtain ⟨limit, rfl⟩ := Nat.exists_eq_add_one.mpr hlimit
              rw [hsucc]
              rfl
          | succ n =>
              obtain ⟨N, hN⟩ := ih b' ⟨n, hround⟩
              refine ⟨N + 1, fun limit hlimit report => ?_⟩
              obtain ⟨limit, rfl⟩ := Nat.exists_eq_add_one.mpr (Nat.zero_lt_of_lt hlimit)
              have hnext : after rs 1 b = b' := by
                show (round rs b 0).1 = b'
                rw [hround]
              rw [hsucc, if_neg (by simp)]
              rcases hN limit (by omega) _ with hdone | ⟨k, hk, hiterations, habandons⟩
              · exact .inl hdone
              · refine .inr ⟨k + 1, by omega, ?_, ?_⟩
                · rw [hiterations]
                  simp only
                  omega
                · rw [← hnext] at habandons
                  exact habandons

theorem advancing_standard (options : Options) :
    ∀ r ∈ (standard options none).stages, r.Advancing := by
  simp only [standard, Option.toList_none, List.map_nil, List.nil_append, List.forall_mem_cons]
  exact ⟨fun b => Folding.answers b.marks, Temporaries.Context.answers options, by simp⟩

end Pipeline

open Pipeline

/-- Without a mapping a run stops by itself: with enough rounds to go it converges, or one of its
rounds is abandoned because expressions nest too deep. -/
theorem simplify_terminates (options : Options) (b : Block) :
    ∃ N, ∀ limit, N ≤ limit →
      let report := (b.simplify { options with maxIterations := limit } none).2
      report.converged = true ∨
        ∃ k < N, report.iterations = k + 1 ∧
          Abandons (standard options none).stages (after (standard options none).stages k b) := by
  obtain ⟨N, hN⟩ := rounds_end (flat_standard options) (acc_next (advancing_standard options) b)
  refine ⟨N, fun limit hlimit => ?_⟩
  have h := hN limit hlimit ⟨0, 0, false⟩
  simp only [Nat.zero_add] at h
  exact h

end Devirt
