import Devirt.Syntax.Printer
import Mathlib.Order.Filter.AtTopBot.Basic
import Mathlib.Tactic

set_option autoImplicit false

/-! # Reading expressions

A reader for the texts of expressions made of names, operators, selections and calls.  It tells from the
first character what begins: a prefix operator, a parenthesis or a word.  Behind a name or a closed
parenthesis it goes on as long as selections and calls follow (`readRest`).  A negation is read as one of
what follows it, or else as one of an operand in parentheses.

The reader takes fuel, and `Eventually` says what it answers once it has enough.  The rules below are
about such answers, so that there is no fuel in what is built on them. -/

namespace Devirt

namespace Reading

open Syntax Filter

/-! ## The reader -/

def expect (c : Char) : List Char → Option (List Char)
  | [] => none
  | d :: cs => if d = c then some cs else none

/-- The binary operator that stands up to the next blank. -/
def readOperator (cs : List Char) : Option (BinaryOp × List Char) :=
  (BinaryOp.all.find? fun op => op.symbol.toList == cs.takeWhile (· ≠ ' ')).map fun op =>
    (op, cs.dropWhile (· ≠ ' '))

mutual

/-- The expression that a text begins with, and the text behind it. -/
def readExpr : Nat → List Char → Option (Expr × List Char)
  | 0, _ => none
  | _ + 1, [] => none
  | n + 1, c :: cs =>
    if c = '-' then
      match readExpr n cs with
      | some (e, cs) => some (.unary .neg e, cs)
      | none => do
        let cs ← expect '(' cs
        let (e, cs) ← readExpr n cs
        let cs ← expect ')' cs
        readRest n (.unary .neg e) cs
    else if c = '#' then do
      let (e, cs) ← readExpr n cs
      some (.unary .len e, cs)
    else if c = '(' then do
      let (l, cs) ← readExpr n cs
      let cs ← expect ' ' cs
      let (op, cs) ← readOperator cs
      let cs ← expect ' ' cs
      let (r, cs) ← readExpr n cs
      let cs ← expect ')' cs
      readRest n (.binary op l r) cs
    else
      let word := String.ofList ((c :: cs).takeWhile isIdentRest)
      let rest := (c :: cs).dropWhile isIdentRest
      if word = "not" then do
        let cs ← expect ' ' rest
        let (e, cs) ← readExpr n cs
        some (.unary .not e, cs)
      else if isIdent word then readRest n (.name word) rest
      else none

/-- The selections and calls that follow an expression. -/
def readRest : Nat → Expr → List Char → Option (Expr × List Char)
  | 0, _, _ => none
  | _ + 1, e, [] => some (e, [])
  | n + 1, e, c :: cs =>
    if c = '.' then
      readRest n (.member e (String.ofList (cs.takeWhile isIdentRest))) (cs.dropWhile isIdentRest)
    else if c = '[' then do
      let (k, cs) ← readExpr n cs
      let cs ← expect ']' cs
      readRest n (.index e k) cs
    else if c = '(' then do
      let (args, cs) ← readArgs n cs
      readRest n (.call e args) cs
    else some (e, c :: cs)

/-- Arguments up to the closing parenthesis. -/
def readArgs : Nat → List Char → Option (List Expr × List Char)
  | 0, _ => none
  | n + 1, cs =>
    match readMore n cs with
    | some x => some x
    | none => do
      let cs ← expect ')' cs
      some ([], cs)

/-- Arguments up to the closing parenthesis, one at least. -/
def readMore : Nat → List Char → Option (List Expr × List Char)
  | 0, _ => none
  | n + 1, cs => do
    let (a, cs) ← readExpr n cs
    match expect ')' cs with
    | some cs => some ([a], cs)
    | none => do
      let cs ← expect ',' cs
      let cs ← expect ' ' cs
      let (as, cs) ← readMore n cs
      some (a :: as, cs)

end

/-! ## Enough fuel -/

/-- With enough fuel the answer is `x`. -/
def Eventually {α : Type} (read : Nat → Option α) (x : α) : Prop :=
  ∀ᶠ n in atTop, read n = some x

theorem Eventually.unique {α : Type} {read : Nat → Option α} {x y : α} (hx : Eventually read x)
    (hy : Eventually read y) : x = y := by
  obtain ⟨n, hxn, hyn⟩ := (hx.and hy).exists
  exact Option.some.inj (hxn.symm.trans hyn)

/-- One unit of fuel may be used up first. -/
theorem Eventually.of_succ {α : Type} {read : Nat → Option α} {x : α}
    (h : Eventually (fun n => read (n + 1)) x) : Eventually read x := by
  obtain ⟨m, hm⟩ := eventually_atTop.mp h
  refine eventually_atTop.mpr ⟨m + 1, fun n hn => ?_⟩
  obtain ⟨k, rfl⟩ : ∃ k, n = k + 1 := ⟨n - 1, by omega⟩
  exact hm k (by omega)

/-- Enough fuel stays enough. -/
theorem Eventually.succ {α : Type} {read : Nat → Option α} {x : α} (h : Eventually read x) :
    Eventually (fun n => read (n + 1)) x :=
  (tendsto_add_atTop_nat 1).eventually h

/-- The text begins with an expression. -/
abbrev Reads (cs : List Char) (x : Expr × List Char) : Prop := Eventually (readExpr · cs) x

/-- An expression that was read, together with what follows. -/
abbrev GoesOn (e : Expr) (cs : List Char) (x : Expr × List Char) : Prop :=
  Eventually (readRest · e cs) x

abbrev ReadsMore (cs : List Char) (x : List Expr × List Char) : Prop := Eventually (readMore · cs) x

/-! ## Words -/

/-- A text that does not continue a word. -/
def Parted (cs : List Char) : Prop := ∀ c ∈ cs.head?, isIdentRest c = false

instance (cs : List Char) : Decidable (Parted cs) := inferInstanceAs (Decidable (∀ c ∈ _, _))

theorem isIdentRest_of_isIdent {w : String} (h : isIdent w = true) :
    w.toList ≠ [] ∧ ∀ c ∈ w.toList, isIdentRest c = true := by
  rw [isIdent] at h
  split at h
  · cases h
  · next c cs hcs =>
    rw [Bool.and_eq_true] at h
    rw [hcs]
    refine ⟨List.cons_ne_nil c cs, List.forall_mem_cons.mpr ⟨?_, List.all_eq_true.mp h.2⟩⟩
    rw [isIdentRest, h.1, Bool.true_or]

/-- A word is told from what follows it. -/
theorem span_word {w : String} (hw : isIdent w = true) {rest : List Char} (hrest : Parted rest) :
    (w.toList ++ rest).takeWhile isIdentRest = w.toList ∧
      (w.toList ++ rest).dropWhile isIdentRest = rest := by
  obtain ⟨-, hall⟩ := isIdentRest_of_isIdent hw
  have hstop : rest.takeWhile isIdentRest = [] ∧ rest.dropWhile isIdentRest = rest := by
    cases rest with
    | nil => exact ⟨rfl, rfl⟩
    | cons c cs =>
        have hc : isIdentRest c = false := hrest c rfl
        simp [hc]
  rw [List.takeWhile_append_of_pos hall, List.dropWhile_append_of_pos hall, hstop.1, hstop.2,
    List.append_nil]
  exact ⟨rfl, rfl⟩

theorem readExpr_word (n : Nat) {w : String} (hw : isIdent w = true) {rest : List Char}
    (hrest : Parted rest) :
    readExpr (n + 1) (w.toList ++ rest)
      = if w = "not" then do
          let cs ← expect ' ' rest
          let (e, cs) ← readExpr n cs
          some (.unary .not e, cs)
        else readRest n (.name w) rest := by
  obtain ⟨hne, hall⟩ := isIdentRest_of_isIdent hw
  obtain ⟨hword, hbehind⟩ := span_word hw hrest
  obtain ⟨c, cs, hcs⟩ := List.exists_cons_of_ne_nil hne
  have hfirst : isIdentRest c = true := hall c (by rw [hcs]; exact List.mem_cons_self)
  have hother : ∀ d, isIdentRest d = false → c ≠ d := fun d hd heq => by
    rw [← heq, hfirst] at hd
    cases hd
  rw [hcs, List.cons_append] at hword hbehind ⊢
  rw [readExpr, if_neg (hother '-' (by decide)), if_neg (hother '#' (by decide)),
    if_neg (hother '(' (by decide)), hword, hbehind, ← hcs, String.ofList_toList]
  simp only [hw, if_true]

theorem readOperator_symbol (op : BinaryOp) (cs : List Char) :
    readOperator (op.symbol.toList ++ ' ' :: cs) = some (op, ' ' :: cs) := by
  cases op <;> rfl

/-! ## Rules for expressions -/

section
variable {cs cs' rest : List Char} {e l r : Expr} {x : Expr × List Char}

theorem reads_neg (h : Reads cs x) : Reads ('-' :: cs) (.unary .neg x.1, x.2) := by
  refine .of_succ ?_
  filter_upwards [h] with n hn
  simp [readExpr, hn]

theorem reads_len (h : Reads cs x) : Reads ('#' :: cs) (.unary .len x.1, x.2) := by
  refine .of_succ ?_
  filter_upwards [h] with n hn
  simp [readExpr, hn]

theorem reads_not (h : Reads cs x) : Reads ("not".toList ++ ' ' :: cs) (.unary .not x.1, x.2) := by
  have hparted : Parted (' ' :: cs) := fun c hc => Option.some.inj hc ▸ by decide
  refine .of_succ ?_
  filter_upwards [h] with n hn
  rw [readExpr_word n (by decide) hparted]
  simp [expect, hn]

theorem reads_binary {op : BinaryOp} (hl : Reads cs (l, ' ' :: (op.symbol.toList ++ ' ' :: cs')))
    (hr : Reads cs' (r, ')' :: rest)) (h : GoesOn (.binary op l r) rest x) : Reads ('(' :: cs) x := by
  refine .of_succ ?_
  filter_upwards [hl, hr, h] with n hl hr h
  simp [readExpr, hl, hr, h, expect, readOperator_symbol]

/-- A negated operand in parentheses: it is no binary operation, so reading it as one fails. -/
theorem reads_bracketed (he : Reads cs (e, ')' :: rest)) (h : GoesOn (.unary .neg e) rest x) :
    Reads ('-' :: '(' :: cs) x := by
  refine .of_succ (.of_succ ?_)
  filter_upwards [he, he.succ, h.succ] with n hparen he h
  have hnone : readExpr (n + 1) ('(' :: cs) = none := by simp [readExpr, hparen, expect]
  rw [readExpr, if_pos rfl, hnone]
  simp [expect, he, h]

theorem reads_name {w : String} (hw : isIdent w = true) (hnot : w ≠ "not") (hrest : Parted rest)
    (h : GoesOn (.name w) rest x) : Reads (w.toList ++ rest) x := by
  refine .of_succ ?_
  filter_upwards [h] with n hn
  rw [readExpr_word n hw hrest, if_neg hnot, hn]

/-! ## Rules for what follows an expression -/

/-- A text that does not continue an expression. -/
def Stops (cs : List Char) : Prop := ∀ c ∈ cs.head?, c ∈ [' ', ')', ']', ',']

theorem Stops.parted (h : Stops cs) : Parted cs := fun c hc => by
  have hmem := h c hc
  simp only [List.mem_cons, List.not_mem_nil, or_false] at hmem
  rcases hmem with rfl | rfl | rfl | rfl <;> decide

theorem goesOn_stop (h : Stops rest) : GoesOn e rest (e, rest) := by
  refine .of_succ (.of_forall fun n => ?_)
  cases rest with
  | nil => rfl
  | cons c cs =>
      have hmem := h c rfl
      simp only [List.mem_cons, List.not_mem_nil, or_false] at hmem
      rcases hmem with rfl | rfl | rfl | rfl <;> rfl

theorem goesOn_member {f : String} (hf : isIdent f = true) (hrest : Parted rest)
    (h : GoesOn (.member e f) rest x) : GoesOn e ('.' :: (f.toList ++ rest)) x := by
  obtain ⟨hword, hbehind⟩ := span_word hf hrest
  refine .of_succ ?_
  filter_upwards [h] with n hn
  rw [readRest, if_pos rfl, hword, hbehind, String.ofList_toList, hn]

theorem goesOn_index {k : Expr} (hk : Reads cs (k, ']' :: rest)) (h : GoesOn (.index e k) rest x) :
    GoesOn e ('[' :: cs) x := by
  refine .of_succ ?_
  filter_upwards [hk, h] with n hk h
  simp [readRest, hk, expect, h]

theorem readMore_close (n : Nat) (rest : List Char) : readMore n (')' :: rest) = none := by
  have hexpr : ∀ n, readExpr n (')' :: rest) = none := fun n => by
    cases n with
    | zero => rfl
    | succ n =>
        have hword : (')' :: rest).takeWhile isIdentRest = [] := rfl
        rw [readExpr, hword]
        rfl
  cases n with
  | zero => rfl
  | succ n => rw [readMore, hexpr]; rfl

theorem goesOn_call_nil (h : GoesOn (.call e []) rest x) : GoesOn e ('(' :: ')' :: rest) x := by
  refine .of_succ (.of_succ ?_)
  filter_upwards [h.succ] with n h
  simp [readRest, readArgs, readMore_close, expect, h]

theorem goesOn_call {args : List Expr} (hargs : ReadsMore cs (args, rest))
    (h : GoesOn (.call e args) rest x) : GoesOn e ('(' :: cs) x := by
  refine .of_succ (.of_succ ?_)
  filter_upwards [hargs, h.succ] with n hargs h
  simp [readRest, readArgs, hargs, h]

theorem readsMore_last (h : Reads cs (e, ')' :: rest)) : ReadsMore cs ([e], rest) := by
  refine .of_succ ?_
  filter_upwards [h] with n hn
  simp [readMore, hn, expect]

theorem readsMore_cons {args : List Expr} (h : Reads cs (e, ',' :: ' ' :: cs'))
    (hargs : ReadsMore cs' (args, rest)) : ReadsMore cs (e :: args, rest) := by
  refine .of_succ ?_
  filter_upwards [h, hargs] with n hn hargs
  simp [readMore, hn, expect, hargs]

end

end Reading

end Devirt
