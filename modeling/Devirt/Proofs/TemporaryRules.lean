import Devirt.Pass.Temporaries
import Mathlib.Tactic

set_option autoImplicit false

/-! # What the rules for temporaries answer

One lemma for each rule of `Temporaries`: from an answer, what the rule was asked and what it asked
the table. -/

namespace Devirt

namespace Temporaries

namespace Context

variable {c : Context}

theorem temporary_eq_some {n : String} {v : Variable} :
    c.temporary n = some v ↔
      c.options.tempPrefix.toList <+: n.toList ∧ c.usage.get? n = some v ∧ v.escapes = false := by
  unfold temporary
  rw [← List.isPrefixOf_iff_prefix]
  split
  · rename_i htemp
    simp [Option.filter_eq_some_iff, htemp]
  · rename_i htemp
    simp [htemp]

/-- Only names are replaced, by the value of the table. -/
theorem substitute_eq_some {e e' : Expr} (h : c.substitute e = some e') :
    ∃ n v, e = .name n ∧ c.temporary n = some v ∧ v.value = some e' ∧
      inlinable n v e' = true := by
  cases e with
  | name n =>
      rw [substitute] at h
      split at h
      · contradiction
      · rename_i v hv
        obtain ⟨hvalue, hinline⟩ := Option.filter_eq_some_iff.mp h
        exact ⟨n, v, rfl, hv, hvalue, hinline⟩
  | _ => contradiction

/-- A value that is inlined for a name does not mention it. -/
theorem mentions_of_inlinable {n : String} {v : Variable} {e : Expr}
    (h : inlinable n v e = true) : e.mentions n = false := by
  unfold inlinable at h
  rw [Bool.and_eq_true] at h
  obtain ⟨-, h⟩ := h
  split at h
  · simpa [Expr.mentions, bne] using h
  · simp_all
  · simp_all
  · contradiction

theorem assignments_of_inlinable {n : String} {v : Variable} {e : Expr}
    (h : inlinable n v e = true) : v.assignments = 0 := by
  unfold inlinable at h
  rw [Bool.and_eq_true, beq_iff_eq] at h
  exact h.1

/-- What is more than a name is inlined at the only place where it is read. -/
theorem reads_of_inlinable {n : String} {v : Variable} {e : Expr} (h : inlinable n v e = true)
    (he : e.name? = none) : v.reads = 1 := by
  unfold inlinable at h
  rw [Bool.and_eq_true] at h
  obtain ⟨-, h⟩ := h
  split at h
  · simp [Expr.name?] at he
  · simp_all
  · simp_all
  · contradiction

theorem substitutePair_eq_some {l r : Expr} {p : Expr × Expr}
    (h : c.substitutePair l r = some p) :
    (p.1 = l ∨ c.substitute l = some p.1) ∧ (p.2 = r ∨ c.substitute r = some p.2) := by
  unfold substitutePair at h
  split at h
  · contradiction
  · obtain rfl := Option.some.inj h
    constructor
    · cases c.substitute l with
      | none => exact .inl rfl
      | some l' => exact .inr rfl
    · cases c.substitute r with
      | none => exact .inl rfl
      | some r' => exact .inr rfl

theorem call_eq_some {f : Expr} {args : List Expr} {a : Expr × List Expr}
    (h : c.call f args = some a) :
    ∃ l r p, args = [l, r] ∧ c.substitutePair l r = some p ∧ a = (f, [p.1, p.2]) := by
  unfold call at h
  split at h
  · split at h
    · obtain ⟨p, hp, rfl⟩ := Option.map_eq_some_iff.mp h
      exact ⟨_, _, p, rfl, hp, rfl⟩
    · contradiction
  · contradiction

/-- Operations, elements and calls of the register helper get other operands. -/
theorem onExpr_eq_some {e e' : Expr} (h : c.pass.onExpr e = some e') :
    ∃ l r p, c.substitutePair l r = some p ∧
      ((∃ op, e = .binary op l r ∧ e' = .binary op p.1 p.2) ∨
        (e = .index l r ∧ e' = .index p.1 p.2) ∨
        ∃ f, e = .call f [l, r] ∧ e' = .call f [p.1, p.2]) := by
  cases e with
  | binary op l r =>
      obtain ⟨p, hp, rfl⟩ := Option.map_eq_some_iff.mp h
      exact ⟨l, r, p, hp, .inl ⟨op, rfl, rfl⟩⟩
  | index t k =>
      obtain ⟨p, hp, rfl⟩ := Option.map_eq_some_iff.mp h
      exact ⟨t, k, p, hp, .inr (.inl ⟨rfl, rfl⟩)⟩
  | call f args =>
      obtain ⟨a, ha, rfl⟩ := Option.map_eq_some_iff.mp h
      obtain ⟨l, r, p, rfl, hp, rfl⟩ := call_eq_some ha
      exact ⟨l, r, p, hp, .inr (.inr ⟨f, rfl, rfl⟩)⟩
  | _ => contradiction

theorem declaredBy_eq_true {id : NodeId} {e : Expr} (h : c.declaredBy id e = true) :
    ∃ n v, e = .name n ∧ c.temporary n = some v ∧ v.declaration = some id := by
  cases e with
  | name n =>
      rw [declaredBy, beq_iff_eq, Option.bind_eq_some_iff] at h
      obtain ⟨v, hv, hid⟩ := h
      exact ⟨n, v, rfl, hv, hid⟩
  | _ => contradiction

/-- An assignment becomes the declaration of all its targets, or gets the value of the name that is
assigned. -/
theorem assign_eq_some {id : NodeId} {targets values : List Expr} {s : Stmt}
    (h : c.assign id targets values = some s) :
    ((∀ e ∈ targets, c.declaredBy id e = true) ∧
        s = .declare id (targets.filterMap Expr.name?) values) ∨
      ∃ t v v', targets = [t] ∧ values = [v] ∧ c.substitute v = some v' ∧
        s = .assign id [t] [v'] := by
  unfold assign at h
  split at h
  · rename_i hall
    rw [Bool.and_eq_true, List.all_eq_true] at hall
    exact .inl ⟨hall.2, (Option.some.inj h).symm⟩
  · split at h
    · obtain ⟨v', hv', rfl⟩ := Option.map_eq_some_iff.mp h
      exact .inr ⟨_, _, v', rfl, rfl, hv', rfl⟩
    · contradiction

theorem targets_ne_nil_of_assign {id : NodeId} {targets values : List Expr} {s : Stmt}
    (h : c.assign id targets values = some s) : targets ≠ [] := by
  rintro rfl
  simp [assign] at h

theorem isDead_eq_true {names : List String} (h : c.isDead names = true) {n : String}
    (hn : n ∈ names) : ∃ v, c.usage.get? n = some v ∧ v.reads = 0 := by
  unfold isDead at h
  rw [List.all_eq_true] at h
  have hn := h n hn
  rw [beq_iff_eq, Option.map_eq_some_iff] at hn
  exact hn

theorem block_eq_some {b b' : Block} (h : c.block b = some b') :
    b' = b.filter fun s => !c.isDeadStmt s := by
  unfold block at h
  split at h
  · exact (Option.some.inj h).symm
  · contradiction

end Context

end Temporaries

end Devirt
