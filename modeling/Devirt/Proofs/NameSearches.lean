import Devirt.Proofs.Containing
import Devirt.Proofs.TemporaryRules
import Devirt.Proofs.UsageTable

set_option autoImplicit false

/-! # Two searches for a name

Whether a name occurs in an expression is found out in two ways.  `Expr.mentions` looks for it and stops at
functions, each of which may hold any name.  The usage analysis counts the reads and goes into the bodies of
functions as well.  The one finds the name exactly if there is a function or the other counts a read
(`mentions_iff`).  So a rule that asks the first before it inlines a value for a name never inlines a value in
which the second has counted the name. -/

namespace Devirt

open Walk

namespace Usage

/-! ## What the analysis counts in an expression -/

/-- The table after the analysis has gone on with an expression. -/
def continued (table : Dict String Tracked) (place : Place) (e : Expr) (next : Nat) :
    Dict String Tracked :=
  (exprEvents place e next).1.foldl record table

/-- The reads of a name that a table has counted. -/
def counted (table : Dict String Tracked) (n : String) : Nat :=
  ((table.get? n).map (·.info.reads)).getD 0

theorem counted_record (table : Dict String Tracked) (e : Event) (n : String) :
    counted (record table e) n = counted table n + if e.isReadOf n then 1 else 0 := by
  unfold counted
  rw [get?_record]
  by_cases hname : e.name = n
  · subst hname
    rw [if_pos rfl, Option.map_some, Option.getD_some, Event.reads_apply]
    cases table.get? e.name <;> rfl
  · simp [hname, Event.isReadOf_of_name_ne hname]

theorem counted_foldl (es : List Event) (table : Dict String Tracked) (n : String) :
    counted (es.foldl record table) n = counted table n + es.countP (·.isReadOf n) := by
  induction es generalizing table with
  | nil => rfl
  | cons e es ih =>
      rw [List.foldl_cons, ih, counted_record, List.countP_cons]
      omega

/-- The count goes up with an expression exactly if one of its events reads the name. -/
theorem counted_lt_continued {table : Dict String Tracked} {place : Place} {e : Expr} {next : Nat}
    {n : String} : counted table n < counted (continued table place e next) n ↔
      (exprEvents place e next).1.any (·.isReadOf n) = true := by
  rw [continued, counted_foldl, Nat.lt_add_right_iff_pos, List.countP_pos_iff, List.any_eq_true]

/-! ## Both searches, side by side -/

mutual

/-- The search finds a name if some event reads it, or there is a function. -/
theorem mentions_expr (n : String) (place : Place) : (e : Expr) → (next : Nat) →
    (e.mentions n = true ↔
      0 < exprBlocks e ∨ (exprEvents place e next).1.any (·.isReadOf n) = true)
  | .nil, _ | .bool _, _ | .number _, _ | .string _, _ | .vararg, _ => by
      simp [Expr.mentions, exprBlocks, exprEvents]
  | .name m, _ => by simp [Expr.mentions, exprBlocks, exprEvents, Event.isReadOf]
  | .binary _ l r, next | .index l r, next => by
      simp only [Expr.mentions, exprBlocks, exprEvents, Bool.or_eq_true, List.any_append, lt_sup_iff]
      rw [mentions_expr n place l next, mentions_expr n place r (exprEvents place l next).2]
      exact or_or_or_comm
  | .unary _ e, next | .member e _, next => mentions_expr n place e next
  | .call f args, next => by
      simp only [Expr.mentions, exprBlocks, exprEvents, Bool.or_eq_true, List.any_append, lt_sup_iff]
      rw [mentions_expr n place f next, mentions_exprs n place args (exprEvents place f next).2]
      exact or_or_or_comm
  | .table entries, next => mentions_entries n place entries next
  | .function params variadic body, _ => by simp [Expr.mentions, exprBlocks]

theorem mentions_exprs (n : String) (place : Place) : (es : List Expr) → (next : Nat) →
    (Expr.anyMentions n es = true ↔
      0 < exprsBlocks es ∨ (exprsEvents place es next).1.any (·.isReadOf n) = true)
  | [], _ => by simp [Expr.anyMentions, exprsBlocks, exprsEvents]
  | e :: es, next => by
      simp only [Expr.anyMentions, exprsBlocks, exprsEvents, Bool.or_eq_true, List.any_append,
        lt_sup_iff]
      rw [mentions_expr n place e next, mentions_exprs n place es (exprEvents place e next).2]
      exact or_or_or_comm

theorem mentions_entries (n : String) (place : Place) : (es : List Entry) → (next : Nat) →
    (Expr.anyEntryMentions n es = true ↔
      0 < entriesBlocks es ∨ (entriesEvents place es next).1.any (·.isReadOf n) = true)
  | [], _ => by simp [Expr.anyEntryMentions, entriesBlocks, entriesEvents]
  | .positional v :: es, next => by
      simp only [Expr.anyEntryMentions, entriesBlocks, entriesEvents, Bool.or_eq_true,
        List.any_append, lt_sup_iff]
      rw [mentions_expr n place v next, mentions_entries n place es (exprEvents place v next).2]
      exact or_or_or_comm
  | .keyed k v :: es, next => by
      simp only [Expr.anyEntryMentions, entriesBlocks, entriesEvents, Bool.or_eq_true,
        List.any_append, lt_sup_iff]
      rw [mentions_expr n place k next, mentions_expr n place v (exprEvents place k next).2,
        mentions_entries n place es (exprEvents place v (exprEvents place k next).2).2]
      tauto

end

/-- A name is found in an expression exactly if there is a function, or the analysis counts a read. -/
theorem mentions_iff (e : Expr) (n : String) (table : Dict String Tracked) (place : Place) (next : Nat) :
    e.mentions n = true ↔
      (∃ params variadic body, (Slot.expr e).Contains (.expr (.function params variadic body))) ∨
        counted table n < counted (continued table place e next) n := by
  have hfunction : 0 < exprBlocks e ↔
      ∃ params variadic body, (Slot.expr e).Contains (.expr (.function params variadic body)) := by
    have hnone := exprBlocks_eq_zero_iff e
    rw [Nat.pos_iff_ne_zero, ne_eq, hnone]
    push Not
    rfl
  rw [mentions_expr n place e next, hfunction, counted_lt_continued]

/-- What may be inlined for a name is an expression in which no read of the name is counted. -/
theorem counted_of_substitute {c : Temporaries.Context} {n : String} {e : Expr}
    (h : c.substitute (.name n) = some e) (table : Dict String Tracked) (place : Place) (next : Nat) :
    counted (continued table place e next) n = counted table n := by
  obtain ⟨m, v, hm, -, -, hinline⟩ := Temporaries.Context.substitute_eq_some h
  obtain rfl := Expr.name.inj hm
  have hmentions := Temporaries.Context.mentions_of_inlinable hinline
  have hnotLess : ¬ counted table n < counted (continued table place e next) n := by
    intro hless
    have hfound := (mentions_iff e n table place next).mpr (.inr hless)
    rw [hmentions] at hfound
    contradiction
  have hle : counted table n ≤ counted (continued table place e next) n := by
    rw [continued, counted_foldl]
    omega
  omega

/-- Wherever the analysis stands when it comes to an expression: a name of which it counts a read there is found
by the search, and a name that is found in an expression without functions is one of which it counts a read.
So nothing is inlined for a name in which reads of that name are counted. -/
theorem searches_agree (e : Expr) (n : String) (table : Dict String Tracked) (place : Place)
    (next : Nat) :
    (counted table n < counted (continued table place e next) n → e.mentions n = true) ∧
      ((∀ params variadic body,
          ¬ (Slot.expr e).Contains (.expr (.function params variadic body))) →
        e.mentions n = true → counted table n < counted (continued table place e next) n) ∧
      ∀ c : Temporaries.Context, c.substitute (.name n) = some e →
        counted (continued table place e next) n = counted table n := by
  have hiff := mentions_iff e n table place next
  refine ⟨fun hless => hiff.mpr (.inr hless), fun hnone hfound => ?_, fun c hc => ?_⟩
  · rcases hiff.mp hfound with ⟨params, variadic, body, hcontains⟩ | hless
    · exact absurd hcontains (hnone params variadic body)
    · exact hless
  · exact counted_of_substitute hc table place next

/-- In `#{[f(_1)] = 2} < _1.n` both searches find `_1`, in the key of an entry and as an object; and of
`local _1 = t[k]`, where `_1` is read once, the value holds no read of `_1`. -/
theorem searches_agree_table :
    let e : Expr := .binary .lt
      (.unary .len (.table [.keyed (.call (.name "f") [.name "_1"]) (.number (Double.ofNat 2))]))
      (.member (.name "_1") "n")
    let value : Expr := .index (.name "t") (.name "k")
    let c : Temporaries.Context := ⟨.standard, ⟨[("_1", ⟨1, 0, some 1, some value, false⟩)]⟩⟩
    (counted .empty "_1" < counted (continued .empty [0] e 1) "_1" ∧ e.mentions "_1" = true) ∧
      ((∀ params variadic body,
          ¬ (Slot.expr e).Contains (.expr (.function params variadic body))) ∧
        counted (continued .empty [0] e 1) "_1" = 2) ∧
      (c.substitute (.name "_1") = some value ∧
        counted (continued .empty [0] value 1) "_1" = 0) := by
  intro e value c
  have hnone : ∀ params variadic body,
      ¬ (Slot.expr e).Contains (.expr (.function params variadic body)) :=
    (exprBlocks_eq_zero_iff e).mp (by decide)
  have hvalue : c.substitute (.name "_1") = some value := by cbv
  obtain ⟨hfinds, hcounts, -⟩ := searches_agree e "_1" .empty [0] 1
  obtain ⟨-, -, hinlined⟩ := searches_agree value "_1" .empty [0] 1
  have hless := hcounts hnone (by decide)
  exact ⟨⟨hless, hfinds hless⟩, ⟨hnone, by decide⟩, hvalue, hinlined c hvalue⟩

end Usage

end Devirt
