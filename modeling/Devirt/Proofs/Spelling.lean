import Devirt.Catalog.MoonSecV3
import Devirt.Fingerprint
import Mathlib.Tactic

set_option autoImplicit false

/-! # What a fingerprint says of a shape

A fingerprint spells the tokens of a block in decimal, with nothing between them.  It gives away the
digits of the tokens in order (`write_eq_iff`), but not where one token ends and the next begins: `19`
is a remainder, or the registers followed by an element.

Which token lists are those of blocks is soon said (`sentence_iff`): any tokens may follow each other,
except that further clauses and an `else` are announced right behind their `if`.  So little is ruled
out that every digit may be a token by itself.  Hence the only token lists that a fingerprint proves
are those without a token of two digits, in which no two neighbours make one either
(`unmistakable_iff`).  Among token lists that are *legible*, where a one-digit token never runs on into
the next, each has a fingerprint of its own (`eq_of_spell_eq`). -/

namespace Devirt

namespace Fingerprint

/-! ## Spelling -/

/-- The decimal digits of a token, which has one or two. -/
def digits (t : Nat) : List Nat := if t < 10 then [t] else [t / 10, t % 10]

/-- The digits of tokens, one token after the other. -/
def spell (tokens : List Nat) : List Nat := tokens.flatMap digits

@[simp] theorem spell_nil : spell [] = [] := rfl

@[simp] theorem spell_cons (t : Nat) (l : List Nat) : spell (t :: l) = digits t ++ spell l := rfl

@[simp] theorem spell_append (l l' : List Nat) : spell (l ++ l') = spell l ++ spell l' := by
  simp [spell]

theorem digits_of_lt {t : Nat} (h : t < 10) : digits t = [t] := if_pos h

theorem digits_of_le {t : Nat} (h : 10 ≤ t) : digits t = [t / 10, t % 10] :=
  if_neg (Nat.not_lt.mpr h)

/-- Tokens of one digit are their own spelling. -/
theorem spell_of_lt {l : List Nat} (h : ∀ t ∈ l, t < 10) : spell l = l := by
  induction l with
  | nil => rfl
  | cons t l ih =>
      rw [List.forall_mem_cons] at h
      rw [spell_cons, digits_of_lt h.1, ih h.2, List.singleton_append]

theorem lt_of_mem_spell {l : List Nat} (h : ∀ t ∈ l, t < 100) : ∀ d ∈ spell l, d < 10 := by
  intro d hd
  obtain ⟨t, ht, hdt⟩ := List.mem_flatMap.mp hd
  have hbound := h t ht
  by_cases hlt : t < 10
  · rw [digits_of_lt hlt, List.mem_singleton] at hdt
    omega
  · rw [digits_of_le (by omega), List.mem_pair] at hdt
    omega

/-- The number a digit stands for. -/
def digitValue (c : Char) : Nat := c.toNat - '0'.toNat

theorem digitValue_digitChar : ∀ d < 10, digitValue d.digitChar = d := by decide

theorem digitValue_lt {c : Char} (h : c.isDigit = true) : digitValue c < 10 := by
  obtain ⟨-, hhigh⟩ := Char.isDigit_iff_toNat.mp h
  simp only [digitValue, Char.reduceToNat] at hhigh ⊢
  omega

theorem digitChar_digitValue {c : Char} (h : c.isDigit = true) : (digitValue c).digitChar = c := by
  obtain ⟨hlow, -⟩ := Char.isDigit_iff_toNat.mp h
  have hcode : ∀ d < 10, d.digitChar.toNat = d + '0'.toNat := by decide
  rw [← Char.toNat_inj, hcode _ (digitValue_lt h), digitValue, Nat.sub_add_cancel hlow]

theorem toDigits_eq {t : Nat} (h : t < 100) : Nat.toDigits 10 t = (digits t).map Nat.digitChar := by
  by_cases hlt : t < 10
  · rw [Nat.toDigits_of_lt_base hlt, digits_of_lt hlt, List.map_singleton]
  · have hhigh : t / 10 < 10 := by omega
    rw [Nat.toDigits_eq_if (by decide), if_neg hlt, Nat.toDigits_of_lt_base hhigh,
      digits_of_le (by omega)]
    rfl

theorem toList_write {l : List Nat} (h : ∀ t ∈ l, t < 100) :
    (write l).toList = (spell l).map Nat.digitChar := by
  rw [write, String.toList_join]
  induction l with
  | nil => rfl
  | cons t l ih =>
      rw [List.forall_mem_cons] at h
      have htoken : (toString t).toList = (digits t).map Nat.digitChar := by
        rw [← toDigits_eq h.1]
        exact Nat.toList_repr
      rw [List.map_cons, List.flatMap_cons, ih h.2, htoken, spell_cons, List.map_append]

/-- The digits can be read off the text. -/
theorem spell_eq_of_write {l : List Nat} (h : ∀ t ∈ l, t < 100) :
    spell l = (write l).toList.map digitValue := by
  have hvalue : ∀ d ∈ spell l, (digitValue ∘ Nat.digitChar) d = d := fun d hd =>
    digitValue_digitChar d (lt_of_mem_spell h d hd)
  rw [toList_write h, List.map_map, List.map_congr_left hvalue, List.map_id']

/-- Tokens are written alike exactly if they have the same digits. -/
theorem write_eq_iff {l l' : List Nat} (h : ∀ t ∈ l, t < 100) (h' : ∀ t ∈ l', t < 100) :
    write l = write l' ↔ spell l = spell l' := by
  constructor
  · intro heq
    rw [spell_eq_of_write h, spell_eq_of_write h', heq]
  · intro heq
    rw [← String.toList_inj, toList_write h, toList_write h', heq]

/-! ## The token lists of blocks -/

/-- A token that may stand anywhere: any but the announcements of a further clause and of an
`else`. -/
def IsFree (t : Nat) : Prop := t ≤ 42 ∧ t ≠ 11 ∧ t ≠ 12

instance (t : Nat) : Decidable (IsFree t) := by unfold IsFree; infer_instance

/-- Token lists in which clauses and `else` are announced right behind an `if`. -/
inductive Sentence : List Nat → Prop where
  | nil : Sentence []
  | free {t : Nat} {l : List Nat} : IsFree t → Sentence l → Sentence (t :: l)
  | clauses (k : Nat) {l : List Nat} : Sentence l → Sentence (10 :: (List.replicate k 11 ++ l))
  | orElse (k : Nat) {l : List Nat} :
      Sentence l → Sentence (10 :: (List.replicate k 11 ++ 12 :: l))

namespace Sentence

variable {l l' : List Nat}

theorem append (h : Sentence l) (h' : Sentence l') : Sentence (l ++ l') := by
  induction h with
  | nil => exact h'
  | free ht _ ih => exact .free ht ih
  | clauses k _ ih => simpa using clauses k ih
  | orElse k _ ih => simpa using orElse k ih

theorem of_forall (h : ∀ t ∈ l, IsFree t) : Sentence l := by
  induction l with
  | nil => exact .nil
  | cons t l ih =>
      rw [List.forall_mem_cons] at h
      exact .free h.1 (ih h.2)

theorem le (h : Sentence l) : ∀ t ∈ l, t ≤ 42 := by
  induction h with
  | nil => simp
  | free ht _ ih => exact List.forall_mem_cons.mpr ⟨ht.1, ih⟩
  | clauses k _ ih => simpa [or_imp, forall_and] using ih
  | orElse k _ ih => simpa [or_imp, forall_and] using ih

/-- The first token of two digits is free: what announces a clause or an `else` comes behind an
`if`, which has two digits itself. -/
theorem isFree_of_append {pre post : List Nat} {t : Nat} (h : Sentence (pre ++ t :: post))
    (hpre : ∀ x ∈ pre, x < 10) : IsFree t := by
  generalize hl : pre ++ t :: post = l at h
  induction h generalizing pre with
  | nil => simp at hl
  | free ht _ ih =>
      cases pre with
      | nil =>
          cases hl
          exact ht
      | cons x pre =>
          obtain ⟨-, hl⟩ := List.cons.inj hl
          exact ih (List.forall_mem_cons.mp hpre).2 hl
  | clauses k _ _ | orElse k _ _ =>
      -- the list begins with the `if`
      cases pre with
      | nil =>
          obtain ⟨rfl, -⟩ := List.cons.inj hl
          decide
      | cons x pre =>
          obtain ⟨rfl, -⟩ := List.cons.inj hl
          exact absurd (hpre 10 (by simp)) (by decide)

end Sentence

theorem sentence_name (n : String) : Sentence (nameToken n).toList := by
  cases h : nameToken n with
  | none => exact .nil
  | some t =>
      have hmem : ∀ v ∈ vocabulary, IsFree v.2 := by decide
      obtain ⟨_, _, hvocabulary, -⟩ := List.lookup_eq_some_iff.mp h
      exact .free (hmem (n, t) (by rw [hvocabulary]; simp)) .nil

mutual

theorem sentence_expr : (e : Expr) → Sentence (exprTokens e)
  | .nil | .bool _ | .number _ | .string _ => .nil
  | .vararg => .free (by decide) .nil
  | .name n => sentence_name n
  | .binary op l r =>
      .free (by cases op <;> decide) ((sentence_expr l).append (sentence_expr r))
  | .unary op e => .free (by cases op <;> decide) (sentence_expr e)
  | .member o _ => .free (by decide) (sentence_expr o)
  | .index t k => .free (by decide) ((sentence_expr t).append (sentence_expr k))
  | .call f args => .free (by decide) ((sentence_expr f).append (sentence_exprs args))
  | .table entries => .free (by decide) (sentence_entries entries)
  | .function _ _ body => .free (by decide) (sentence_stmts body)

theorem sentence_exprs : (es : List Expr) → Sentence (exprsTokens es)
  | [] => .nil
  | e :: es => (sentence_expr e).append (sentence_exprs es)

theorem sentence_entries : (es : List Entry) → Sentence (entriesTokens es)
  | [] => .nil
  | .positional v :: es => (sentence_expr v).append (sentence_entries es)
  | .keyed k v :: es => ((sentence_expr k).append (sentence_expr v)).append (sentence_entries es)

theorem sentence_stmt : (s : Stmt) → Sentence (stmtTokens s)
  | .declare _ _ values => sentence_exprs values
  | .assign _ targets values => (sentence_exprs targets).append (sentence_exprs values)
  | .call f args => .free (by decide) ((sentence_expr f).append (sentence_exprs args))
  | .scope body => sentence_stmts body
  | .branch clauses none => .clauses _ (sentence_clauses clauses)
  | .branch clauses (some body) => .orElse _ ((sentence_clauses clauses).append (sentence_stmts body))
  | .whileLoop cond body => .free (by decide) ((sentence_expr cond).append (sentence_stmts body))
  | .repeatLoop body cond => .free (by decide) ((sentence_stmts body).append (sentence_expr cond))
  | .numericFor _ start limit none body =>
      .free (by decide)
        (((sentence_expr start).append (sentence_expr limit)).append (sentence_stmts body))
  | .numericFor _ start limit (some step) body =>
      .free (by decide)
        ((((sentence_expr start).append (sentence_expr limit)).append (sentence_expr step)).append
          (sentence_stmts body))
  | .genericFor _ exprs body => .free (by decide) ((sentence_exprs exprs).append (sentence_stmts body))
  | .ret values => .free (by decide) (sentence_exprs values)
  | .brk => .free (by decide) .nil

theorem sentence_stmts : (b : List Stmt) → Sentence (stmtsTokens b)
  | [] => .nil
  | s :: ss => (sentence_stmt s).append (sentence_stmts ss)

theorem sentence_clauses : (cs : List Clause) → Sentence (clausesTokens cs)
  | [] => .nil
  | .mk cond body :: cs =>
      ((sentence_expr cond).append (sentence_stmts body)).append (sentence_clauses cs)

end

/-- Expressions that leave a single token each. -/
def soloExprs : List Expr :=
  vocabulary.map (fun v => .name v.1) ++ BinaryOp.all.map (fun op => .binary op .nil .nil) ++
    UnaryOp.all.map (fun op => .unary op .nil) ++
    [.vararg, .member .nil "", .index .nil .nil, .call .nil [], .table [], .function [] false []]

/-- Statements that leave a single token each. -/
def soloStmts : List Stmt :=
  soloExprs.map (fun e => .declare 0 [] [e]) ++
    [.branch [.mk .nil []] none, .whileLoop .nil [], .repeatLoop [] .nil,
      .numericFor "" .nil .nil none [], .genericFor [] [] [], .ret [], .brk]

theorem exists_soloStmt : ∀ t < 43, IsFree t → ∃ s ∈ soloStmts, stmtTokens s = [t] := by
  decide +kernel

theorem clausesTokens_replicate (k : Nat) :
    clausesTokens (List.replicate k (.mk .nil [])) = [] := by
  induction k with
  | zero => rfl
  | succ k ih => simp [List.replicate_succ, clausesTokens, exprTokens, stmtsTokens, ih]

/-- The sentences are the token lists of blocks. -/
theorem sentence_iff {l : List Nat} : Sentence l ↔ ∃ b : Block, b.tokens = l := by
  constructor
  · intro h
    induction h with
    | nil => exact ⟨[], rfl⟩
    | @free t l ht _ ih =>
        obtain ⟨b, rfl⟩ := ih
        obtain ⟨s, -, hs⟩ := exists_soloStmt t (Nat.lt_succ_of_le ht.1) ht
        exact ⟨s :: b, by simp [Block.tokens, stmtsTokens, hs]⟩
    | clauses k _ ih =>
        obtain ⟨b, rfl⟩ := ih
        refine ⟨.branch (List.replicate (k + 1) (.mk .nil [])) none :: b, ?_⟩
        simp [Block.tokens, stmtsTokens, stmtTokens, clausesTokens_replicate]
    | orElse k _ ih =>
        obtain ⟨b, rfl⟩ := ih
        refine ⟨.branch (List.replicate (k + 1) (.mk .nil [])) (some b) :: [], ?_⟩
        simp [Block.tokens, stmtsTokens, stmtTokens, clausesTokens_replicate]
  · rintro ⟨b, rfl⟩
    exact sentence_stmts b

/-! ## Token lists that a fingerprint proves -/

/-- Two tokens of one digit read together as a token that may stand anywhere. -/
def Fuses (a c : Nat) : Prop := 0 < a ∧ IsFree (10 * a + c)

instance (a c : Nat) : Decidable (Fuses a c) := by unfold Fuses; infer_instance

/-- All tokens have one digit, and no two neighbours fuse. -/
def Unmistakable (l : List Nat) : Prop :=
  (∀ t ∈ l, t < 10) ∧ l.IsChain fun a c => ¬ Fuses a c

instance (l : List Nat) : Decidable (Unmistakable l) := by unfold Unmistakable; infer_instance

theorem isFree_of_lt {t : Nat} (h : t < 10) : IsFree t := ⟨by omega, by omega, by omega⟩

/-- Among sentences without another of the same spelling there are the unmistakable ones only. -/
theorem unmistakable_iff {l : List Nat} (hl : Sentence l) :
    (∀ l', Sentence l' → spell l' = spell l → l' = l) ↔ Unmistakable l := by
  have hbound : ∀ t ∈ l, t < 100 := fun t ht => (hl.le t ht).trans_lt (by decide)
  constructor
  · intro hsole
    -- each digit by itself is a sentence, so the list is its own spelling
    have hspelled : ∀ t ∈ spell l, t < 10 := lt_of_mem_spell hbound
    have hself : spell l = l :=
      hsole _ (.of_forall fun t ht => isFree_of_lt (hspelled t ht)) (spell_of_lt hspelled)
    have hlt : ∀ t ∈ l, t < 10 := by
      rw [← hself]
      exact hspelled
    refine ⟨hlt, List.isChain_iff_forall_rel_of_append_cons_cons.mpr ?_⟩
    rintro a c pre post rfl ⟨ha, hfree⟩
    simp only [List.forall_mem_append, List.forall_mem_cons] at hlt
    obtain ⟨hpre, hlta, hltc, hpost⟩ := hlt
    -- two neighbours that fuse give a shorter sentence with the same digits
    have hfused : Sentence (pre ++ (10 * a + c) :: post) := by
      refine .of_forall ?_
      simp only [List.forall_mem_append, List.forall_mem_cons]
      exact ⟨fun t ht => isFree_of_lt (hpre t ht), hfree, fun t ht => isFree_of_lt (hpost t ht)⟩
    have hdigits : digits (10 * a + c) = [a, c] := by
      rw [digits_of_le (by omega)]
      congr 1
      · omega
      · congr 1
        omega
    have heq := hsole _ hfused (by
      simp [hdigits, digits_of_lt hlta, digits_of_lt hltc])
    have hlength := congrArg List.length heq
    simp at hlength
  · rintro ⟨hlt, hchain⟩ l' hl' hspell
    rw [spell_of_lt hlt] at hspell
    have hlt' : ∀ t ∈ l', t < 10 := by
      by_contra hsome
      push Not at hsome
      -- the first token of two digits is free, and its digits are neighbours that fuse
      obtain ⟨pre, t, post, rfl, ht, hpre⟩ : ∃ pre t post, l' = pre ++ t :: post ∧ 10 ≤ t ∧
          ∀ x ∈ pre, x < 10 := by
        obtain ⟨x, hx, hle⟩ := hsome
        have hfind : (l'.find? fun x => decide (10 ≤ x)).isSome := by
          simpa using ⟨x, hx, hle⟩
        obtain ⟨t, ht⟩ := Option.isSome_iff_exists.mp hfind
        obtain ⟨hle, pre, post, rfl, hpre⟩ := List.find?_eq_some_iff_append.mp ht
        exact ⟨pre, t, post, rfl, by simpa using hle, fun x hx => by simpa using hpre x hx⟩
      have hfree := hl'.isFree_of_append hpre
      have hl : l = pre ++ t / 10 :: t % 10 :: spell post := by
        rw [← hspell, spell_append, spell_of_lt hpre, spell_cons, digits_of_le ht]
        rfl
      have hapart := List.isChain_iff_forall_rel_of_append_cons_cons.mp hchain hl
      refine hapart ⟨by omega, ?_⟩
      rwa [Nat.div_add_mod]
    rw [← hspell, spell_of_lt hlt']

/-! ## Legible token lists -/

/-- The first digit of a token. -/
def lead (t : Nat) : Nat := if t < 10 then t else t / 10

/-- A token of one digit that the first digit of the next continues to a token of two. -/
def RunsOn (a c : Nat) : Prop := a < 10 ∧ 10 ≤ 10 * a + lead c ∧ 10 * a + lead c ≤ 42

instance (a c : Nat) : Decidable (RunsOn a c) := by unfold RunsOn; infer_instance

/-- No token runs on into the next. -/
def Legible (l : List Nat) : Prop := l.IsChain fun a c => ¬ RunsOn a c

instance (l : List Nat) : Decidable (Legible l) := by unfold Legible; infer_instance

theorem digits_eq_cons (t : Nat) : ∃ ds, digits t = lead t :: ds := by
  by_cases h : t < 10
  · exact ⟨[], by simp [digits, lead, h]⟩
  · exact ⟨[t % 10], by simp [digits, lead, h]⟩

/-- Of two token lists with the same digits, one cannot begin with a token of one digit and the
other with one of two, if the first is legible. -/
theorem not_spell_eq_of_lt {t t' : Nat} {l l' : List Nat} (hl : Legible (t :: l)) (ht : t < 10)
    (ht' : 10 ≤ t') (hbound : t' ≤ 42) : spell (t :: l) ≠ spell (t' :: l') := by
  intro h
  rw [spell_cons, spell_cons, digits_of_lt ht, digits_of_le ht', List.singleton_append,
    List.cons_append] at h
  obtain ⟨htens, hrest⟩ := List.cons.inj h
  cases l with
  | nil => simp at hrest
  | cons c l =>
      obtain ⟨ds, hds⟩ := digits_eq_cons c
      rw [spell_cons, hds, List.cons_append, List.cons_append] at hrest
      obtain ⟨hunits, -⟩ := List.cons.inj hrest
      have hvalue : 10 * t + lead c = t' := by omega
      refine (List.isChain_cons_cons.mp hl).1 ⟨ht, ?_⟩
      rw [hvalue]
      exact ⟨ht', hbound⟩

/-- Legible token lists with the same digits are equal. -/
theorem eq_of_spell_eq {l l' : List Nat} (hl : Legible l) (hl' : Legible l')
    (hle : ∀ t ∈ l, t ≤ 42) (hle' : ∀ t ∈ l', t ≤ 42) (h : spell l = spell l') : l = l' := by
  induction l generalizing l' with
  | nil =>
      cases l' with
      | nil => rfl
      | cons t' l' =>
          obtain ⟨ds, hds⟩ := digits_eq_cons t'
          simp [hds] at h
  | cons t l ih =>
      cases l' with
      | nil =>
          obtain ⟨ds, hds⟩ := digits_eq_cons t
          simp [hds] at h
      | cons t' l' =>
          rw [List.forall_mem_cons] at hle hle'
          have hrest : spell l = spell l' → l = l' := ih hl.tail hl'.tail hle.2 hle'.2
          rcases Nat.lt_or_ge t 10 with ht | ht <;> rcases Nat.lt_or_ge t' 10 with ht' | ht'
          · rw [spell_cons, spell_cons, digits_of_lt ht, digits_of_lt ht'] at h
            obtain ⟨rfl, htail⟩ := List.cons.inj h
            rw [hrest htail]
          · exact absurd h (not_spell_eq_of_lt hl ht ht' hle'.1)
          · exact absurd h.symm (not_spell_eq_of_lt hl' ht' ht hle.1)
          · simp only [spell_cons, digits_of_le ht, digits_of_le ht', List.cons_append,
              List.nil_append] at h
            obtain ⟨htens, hcons⟩ := List.cons.inj h
            obtain ⟨hunits, htail⟩ := List.cons.inj hcons
            obtain rfl : t = t' := by omega
            rw [hrest htail]

end Fingerprint

open Fingerprint

/-! ## Blocks -/

theorem Block.sentence_tokens (b : Block) : Sentence b.tokens := sentence_iff.mpr ⟨b, rfl⟩

/-- Blocks have the same fingerprint exactly if their tokens have the same digits. -/
theorem Block.fingerprint_eq_iff (b b' : Block) :
    b.fingerprint = b'.fingerprint ↔ spell b.tokens = spell b'.tokens := by
  have hbound : ∀ b : Block, ∀ t ∈ b.tokens, t < 100 := fun b t ht =>
    (b.sentence_tokens.le t ht).trans_lt (by decide)
  exact write_eq_iff (hbound b) (hbound b')

/-- A fingerprint determines the digits of the tokens.  Between legible blocks that determines the
tokens; against all blocks it does for the unmistakable ones only. -/
theorem tokens_of_fingerprint :
    (∀ b b' : Block, b.fingerprint = b'.fingerprint ↔ spell b.tokens = spell b'.tokens) ∧
      (∀ b b' : Block, Legible b.tokens → Legible b'.tokens → b.fingerprint = b'.fingerprint →
        b.tokens = b'.tokens) ∧
      ∀ b : Block, (∀ b' : Block, b'.fingerprint = b.fingerprint → b'.tokens = b.tokens) ↔
        Unmistakable b.tokens := by
  refine ⟨Block.fingerprint_eq_iff, ?_, ?_⟩
  · intro b b' hb hb' h
    rw [Block.fingerprint_eq_iff] at h
    exact eq_of_spell_eq hb hb' b.sentence_tokens.le b'.sentence_tokens.le h
  · intro b
    rw [← unmistakable_iff b.sentence_tokens]
    constructor
    · intro h l hl hspell
      obtain ⟨b', rfl⟩ := sentence_iff.mp hl
      exact h b' ((Block.fingerprint_eq_iff b' b).mpr hspell)
    · intro h b' hb'
      exact h _ b'.sentence_tokens ((Block.fingerprint_eq_iff b' b).mp hb')

/-- `return #x * {}`, and `local t = nil` before `return #y * {z}`. -/
theorem tokens_of_fingerprint_legible :
    let b : Block := [.ret [.binary .mul (.unary .len (.name "x")) (.table [])]]
    let b' : Block :=
      [.declare 1 ["t"] [.nil],
       .ret [.binary .mul (.unary .len (.name "y")) (.table [.positional (.name "z")])]]
    Legible b.tokens ∧ Legible b'.tokens ∧ b.fingerprint = b'.fingerprint ∧ b.tokens = b'.tokens := by
  intro b b'
  have hb : Legible b.tokens := by decide
  have hb' : Legible b'.tokens := by decide
  have hprint : b.fingerprint = b'.fingerprint := by decide
  exact ⟨hb, hb', hprint, tokens_of_fingerprint.2.1 b b' hb hb' hprint⟩

/-- `r[x % inst] = r[y % inst]` has the fingerprint of `stk[inst[p]] = stk[inst[q]]`, and so the
catalog takes it for a move of registers. -/
theorem fingerprint_of_remainders :
    let remainders : Block :=
      [.assign 1 [.index (.name "r") (.binary .mod (.name "x") (.name "inst"))]
        [.index (.name "r") (.binary .mod (.name "y") (.name "inst"))]]
    let move : Block :=
      [.assign 1 [.index (.name "stk") (.index (.name "inst") (.name "p"))]
        [.index (.name "stk") (.index (.name "inst") (.name "q"))]]
    remainders.fingerprint = move.fingerprint ∧ remainders.tokens ≠ move.tokens ∧
      (Catalog.moonSecV3.lookup remainders.fingerprint).map (·.op) = some .move := by
  decide +kernel

/-- Decimal digits, two neighbours among which fuse. -/
def Fingerprint.digitsFuse : List Char → Bool
  | a :: c :: cs =>
    a.isDigit &&
      (decide (Fuses (digitValue a) (digitValue c)) && (c :: cs).all Char.isDigit ||
        digitsFuse (c :: cs))
  | _ => false

theorem Fingerprint.mistakable_of_digitsFuse {cs : List Char} (h : digitsFuse cs = true) :
    (∀ c ∈ cs, c.isDigit = true) ∧ ¬ Unmistakable (cs.map digitValue) := by
  fun_induction digitsFuse cs with
  | case1 a c cs ih =>
      simp only [Bool.and_eq_true, Bool.or_eq_true, decide_eq_true_eq, List.all_eq_true] at h
      obtain ⟨ha, ⟨hfuse, hcs⟩ | hlater⟩ := h
      · refine ⟨List.forall_mem_cons.mpr ⟨ha, hcs⟩, fun hmistakable => ?_⟩
        exact (List.isChain_cons_cons.mp hmistakable.2).1 hfuse
      · obtain ⟨hcs, hrest⟩ := ih hlater
        refine ⟨List.forall_mem_cons.mpr ⟨ha, hcs⟩, fun hmistakable => hrest ⟨?_, ?_⟩⟩
        · exact (List.forall_mem_cons.mp hmistakable.1).2
        · exact (List.isChain_cons_cons.mp hmistakable.2).2
  | case2 => contradiction

theorem Catalog.digitsFuse_fingerprint :
    ∀ shape ∈ Catalog.moonSecV3.shapes, digitsFuse shape.fingerprint.toList = true := by
  decide +kernel

/-- No fingerprint of the catalog proves a shape: each is that of two blocks with different tokens. -/
theorem Catalog.exists_other_tokens (shape : Shape) (h : shape ∈ Catalog.moonSecV3.shapes) :
    ∃ b b' : Block, b.fingerprint = shape.fingerprint ∧ b'.fingerprint = shape.fingerprint ∧
      b.tokens ≠ b'.tokens := by
  obtain ⟨hdigits, hmistakable⟩ :=
    mistakable_of_digitsFuse (Catalog.digitsFuse_fingerprint shape h)
  generalize hds : shape.fingerprint.toList.map digitValue = ds at hmistakable
  have hlt : ∀ d ∈ ds, d < 10 := by
    rw [← hds, List.forall_mem_map]
    exact fun c hc => digitValue_lt (hdigits c hc)
  -- one block has every digit for a token
  have hsentence : Sentence ds := .of_forall fun d hd => isFree_of_lt (hlt d hd)
  obtain ⟨b, hb⟩ := sentence_iff.mp hsentence
  have hprint : b.fingerprint = shape.fingerprint := by
    have hchars : ∀ c ∈ shape.fingerprint.toList, (Nat.digitChar ∘ digitValue) c = c := fun c hc =>
      digitChar_digitValue (hdigits c hc)
    rw [Block.fingerprint, hb, ← String.toList_inj,
      toList_write fun d hd => (hlt d hd).trans (by decide), spell_of_lt hlt, ← hds, List.map_map,
      List.map_congr_left hchars, List.map_id']
  -- and in the other two of them fuse
  rw [← unmistakable_iff hsentence] at hmistakable
  push Not at hmistakable
  obtain ⟨l', hl', hspell, hne⟩ := hmistakable
  obtain ⟨b', rfl⟩ := sentence_iff.mp hl'
  rw [← hb] at hspell hne
  exact ⟨b, b', hprint, ((Block.fingerprint_eq_iff b' b).mpr hspell).trans hprint, hne.symm⟩

end Devirt
