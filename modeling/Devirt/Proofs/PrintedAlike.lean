import Devirt.Proofs.ExpressionReading

set_option autoImplicit false

/-! # Expressions that are printed alike

A selection or a call binds tighter than a prefix operator, and the printer puts no parentheses around a
prefix operation that a selection or a call is made on: `-x.f` is the text of a negated field and that of
a field of a negation.  A reader takes all such operators out of the object (`Expr.asRead`).

Expressions of words, operators, selections and calls have equal texts exactly when a reader takes them
for the same expression.  Those without a selection or call on a bare prefix operation are told apart by
their texts. -/

namespace Devirt

open Syntax

/-! ## What a reader takes an expression for -/

namespace Syntax

/-- The operand of the prefix operator is printed in parentheses. -/
def Bracketed (op : UnaryOp) (operand : Expr) : Prop :=
  op = .neg ∧ operand.text.toList.head? = some '-'

instance (op : UnaryOp) (operand : Expr) : Decidable (Bracketed op operand) :=
  inferInstanceAs (Decidable (_ ∧ _))

end Syntax

namespace Expr

/-- Prefix operators, the outermost first, before an expression. -/
def under (ops : List UnaryOp) (e : Expr) : Expr := ops.foldr .unary e

mutual

/-- The prefix operators that are read before anything else, and the expression that is read next, with
the selections and calls behind it. -/
def front : Expr → List UnaryOp × Expr
  | .unary op e =>
    if Bracketed op e then ([], .unary op (under (front e).1 (front e).2))
    else (op :: (front e).1, (front e).2)
  | .binary op l r =>
    ([], .binary op (under (front l).1 (front l).2) (under (front r).1 (front r).2))
  | .member o f => ((front o).1, .member (front o).2 f)
  | .index t k => ((front t).1, .index (front t).2 (under (front k).1 (front k).2))
  | .call f args => ((front f).1, .call (front f).2 (asReadAll args))
  | e => ([], e)

def asReadAll : List Expr → List Expr
  | [] => []
  | a :: as => under (front a).1 (front a).2 :: asReadAll as

end

/-- The expression that is read from the text of an expression. -/
def asRead (e : Expr) : Expr := under (front e).1 (front e).2

theorem asRead_of_front {e x : Expr} {ops : List UnaryOp} (h : front e = (ops, x)) :
    asRead e = under ops x := by
  rw [asRead, h]

theorem front_binary (op : BinaryOp) (l r : Expr) :
    front (binary op l r) = ([], binary op (asRead l) (asRead r)) :=
  rfl

theorem front_bracketed {op : UnaryOp} {e : Expr} (h : Bracketed op e) :
    front (unary op e) = ([], unary op (asRead e)) :=
  if_pos h

theorem front_bare {op : UnaryOp} {e : Expr} (h : ¬ Bracketed op e) :
    front (unary op e) = (op :: (front e).1, (front e).2) :=
  if_neg h

theorem front_member (o : Expr) (f : String) :
    front (member o f) = ((front o).1, member (front o).2 f) :=
  rfl

theorem front_index (t k : Expr) :
    front (index t k) = ((front t).1, index (front t).2 (asRead k)) :=
  rfl

theorem asReadAll_eq_map (es : List Expr) : asReadAll es = es.map asRead := by
  induction es with
  | nil => rfl
  | cons e es ih => exact congrArg (asRead e :: ·) ih

theorem front_call (f : Expr) (args : List Expr) :
    front (call f args) = ((front f).1, call (front f).2 (args.map asRead)) := by
  rw [← asReadAll_eq_map]
  rfl

/-! ## Texts -/

theorem text_binary (op : BinaryOp) (l r : Expr) :
    (binary op l r).text = "(" ++ l.text ++ " " ++ op.symbol ++ " " ++ r.text ++ ")" :=
  rfl

theorem text_unary (op : UnaryOp) (e : Expr) : (unary op e).text = unaryText op e.text := rfl

theorem text_bracketed {op : UnaryOp} {e : Expr} (h : Bracketed op e) :
    (unary op e).text = "-(" ++ e.text ++ ")" :=
  if_pos h

theorem text_bare {op : UnaryOp} {e : Expr} (h : ¬ Bracketed op e) :
    (unary op e).text = op.symbol ++ e.text :=
  if_neg h

theorem text_member (o : Expr) {f : String} (hf : isIdent f = true) :
    (member o f).text = o.text ++ ("." ++ f) :=
  congrArg (o.text ++ ·) (if_pos hf)

theorem text_index (t k : Expr) : (index t k).text = t.text ++ ("[" ++ k.text ++ "]") := by
  rw [← String.append_assoc, ← String.append_assoc]
  rfl

theorem texts_eq_map (es : List Expr) : texts es = es.map text := by
  induction es with
  | nil => rfl
  | cons e es ih => exact congrArg (e.text :: ·) ih

theorem text_call (f : Expr) (args : List Expr) :
    (call f args).text = f.text ++ ("(" ++ commas (args.map text) ++ ")") := by
  rw [← texts_eq_map, ← String.append_assoc, ← String.append_assoc]
  rfl

/-! ## The expressions in question -/

/-- The words that are no names. -/
def reserved : List String :=
  ["and", "break", "do", "else", "elseif", "end", "false", "for", "function", "if", "in", "local",
    "nil", "not", "or", "repeat", "return", "then", "true", "until", "while"]

/-- Expressions of names, operators, selections and calls, each selection and call made on an expression
that `Base` admits. -/
inductive Built (Base : Expr → Prop) : Expr → Prop where
  | name {w : String} (hw : isIdent w = true) (hfree : w ∉ reserved) : Built Base (.name w)
  | binary {op : BinaryOp} {l r : Expr} (hl : Built Base l) (hr : Built Base r) :
      Built Base (.binary op l r)
  | unary {op : UnaryOp} {e : Expr} (he : Built Base e) : Built Base (.unary op e)
  | member {o : Expr} {f : String} (ho : Built Base o) (hbase : Base o) (hf : isIdent f = true) :
      Built Base (.member o f)
  | index {t k : Expr} (ht : Built Base t) (hbase : Base t) (hk : Built Base k) :
      Built Base (.index t k)
  | call {f : Expr} {args : List Expr} (hf : Built Base f) (hbase : Base f)
      (hargs : ∀ a ∈ args, Built Base a) : Built Base (.call f args)

/-- Expressions of names, operators, selections and calls. -/
abbrev Plain : Expr → Prop := Built fun _ => True

/-- A prefix operation whose operand stands without parentheses. -/
def Prefixed : Expr → Prop
  | .unary op e => ¬ Bracketed op e
  | _ => False

/-- Plain expressions in which no selection and no call is made on a bare prefix operation. -/
abbrev Firm : Expr → Prop := Built fun e => ¬ e.Prefixed

theorem Firm.plain {e : Expr} (h : Firm e) : Plain e := by
  induction h with
  | name hw hfree => exact .name hw hfree
  | binary _ _ hl hr => exact .binary hl hr
  | unary _ he => exact .unary he
  | member _ _ hf ho => exact .member ho trivial hf
  | index _ _ _ ht hk => exact .index ht trivial hk
  | call _ _ _ hf hargs => exact .call hf trivial hargs

/-! ## A reader takes nothing for another text -/

/-- None of the operators is followed by parentheses of its own. -/
def Bare : List UnaryOp → Expr → Prop
  | [], _ => True
  | op :: ops, e => ¬ Bracketed op (under ops e) ∧ Bare ops e

/-- Parentheses depend on the text of the operand only. -/
theorem bracketed_congr {op : UnaryOp} {e e' : Expr} (h : e'.text = e.text) :
    Bracketed op e' ↔ Bracketed op e := by
  rw [Bracketed, Bracketed, h]

/-- What is added behind an expression does not matter to the operators before it. -/
theorem Bare.append {ops : List UnaryOp} {e e' : Expr} {s : String} (hbare : Bare ops e)
    (htext : e'.text = e.text ++ s) (hs : s.toList.head? ≠ some '-') :
    Bare ops e' ∧ (under ops e').text = (under ops e).text ++ s := by
  induction ops with
  | nil => exact ⟨trivial, htext⟩
  | cons op ops ih =>
      obtain ⟨hop, hrest⟩ := hbare
      obtain ⟨hrest', heq⟩ := ih hrest
      have hop' : ¬ Bracketed op (under ops e') := by
        rintro ⟨rfl, hhead⟩
        rw [heq, String.toList_append, List.head?_append] at hhead
        cases hfirst : (under ops e).text.toList.head? with
        | none => exact hs (by rwa [hfirst] at hhead)
        | some c => exact hop ⟨rfl, by rwa [hfirst] at hhead ⊢⟩
      refine ⟨⟨hop', hrest'⟩, ?_⟩
      change (unary op (under ops e')).text = (unary op (under ops e)).text ++ s
      rw [text_bare hop', text_bare hop, heq, String.append_assoc]

/-- A reader takes the expression for one with the same text. -/
def SameText (e : Expr) : Prop := Bare (front e).1 (front e).2 ∧ (asRead e).text = e.text

/-- The operators at the front of an object stay there when something is added behind it. -/
theorem SameText.behind {o e x : Expr} {s : String} (ho : SameText o)
    (hfront : front e = ((front o).1, x)) (hx : x.text = (front o).2.text ++ s)
    (hs : s.toList.head? ≠ some '-') (htext : e.text = o.text ++ s) : SameText e := by
  obtain ⟨hbare, heq⟩ := ho.1.append hx hs
  rw [SameText, asRead_of_front hfront, hfront, htext, ← ho.2]
  exact ⟨hbare, heq⟩

theorem sameText_unary {op : UnaryOp} {e : Expr} (he : SameText e) : SameText (unary op e) := by
  have htext : (unary op (asRead e)).text = (unary op e).text := by
    rw [text_unary, text_unary, he.2]
  by_cases hop : Bracketed op e
  · rw [SameText, asRead_of_front (front_bracketed hop), front_bracketed hop]
    exact ⟨trivial, htext⟩
  · rw [SameText, asRead_of_front (front_bare hop), front_bare hop]
    exact ⟨⟨fun h => hop ((bracketed_congr he.2).mp h), he.1⟩, htext⟩

theorem Plain.sameText {e : Expr} (h : Plain e) : SameText e := by
  induction h with
  | name _ _ => exact ⟨trivial, rfl⟩
  | @binary op l r _ _ hl hr =>
      rw [SameText, asRead_of_front (front_binary op l r), front_binary]
      refine ⟨trivial, ?_⟩
      change (binary op (asRead l) (asRead r)).text = _
      rw [text_binary, text_binary, hl.2, hr.2]
  | unary _ he => exact sameText_unary he
  | @member o f _ _ hf ho =>
      exact ho.behind (front_member o f) (text_member _ hf) (by simp) (text_member o hf)
  | @index t k _ _ _ ht hk =>
      refine ht.behind (front_index t k) ?_ (by simp) (text_index t k)
      rw [text_index, hk.2]
  | @call f args _ _ _ hf hargs =>
      have hsame : (args.map asRead).map text = args.map text := by
        rw [List.map_map]
        exact List.map_congr_left fun a ha => (hargs a ha).2
      refine hf.behind (front_call f args) ?_ (by simp) (text_call f args)
      rw [text_call, hsame]

/-! ## Every text is read -/

open Reading

/-- Read from its text, the expression is the one behind the operators at the front, with what else is
read behind it. -/
def ReadsBack (e : Expr) : Prop :=
  ∀ ⦃rest : List Char⦄ ⦃x : Expr × List Char⦄, Parted rest → GoesOn (front e).2 rest x →
    Reads (e.text.toList ++ rest) (under (front e).1 x.1, x.2)

theorem ReadsBack.stop {e : Expr} (h : ReadsBack e) {rest : List Char} (hrest : Stops rest) :
    Reads (e.text.toList ++ rest) (asRead e, rest) :=
  h hrest.parted (goesOn_stop hrest)

theorem stops_cons {c : Char} (hc : c ∈ [' ', ')', ']', ',']) (cs : List Char) : Stops (c :: cs) :=
  fun _ h => Option.some.inj h ▸ hc

theorem parted_cons {c : Char} (hc : isIdentRest c = false) (cs : List Char) : Parted (c :: cs) :=
  fun _ h => Option.some.inj h ▸ hc

theorem readsBack_name {w : String} (hw : isIdent w = true) (hfree : w ∉ reserved) :
    ReadsBack (.name w) := by
  intro rest x hrest hx
  have hnot : w ≠ "not" := fun h => hfree (h ▸ by decide)
  exact reads_name hw hnot hrest hx

theorem readsBack_binary {op : BinaryOp} {l r : Expr} (hl : ReadsBack l) (hr : ReadsBack r) :
    ReadsBack (.binary op l r) := by
  intro rest x _ hx
  have hright : Reads (r.text.toList ++ ')' :: rest) (asRead r, ')' :: rest) :=
    hr.stop (stops_cons (by decide) _)
  have hleft := hl.stop (stops_cons (c := ' ') (by decide)
    (op.symbol.toList ++ ' ' :: (r.text.toList ++ ')' :: rest)))
  have hshape : (binary op l r).text.toList ++ rest = '(' :: (l.text.toList ++ ' ' ::
      (op.symbol.toList ++ ' ' :: (r.text.toList ++ ')' :: rest))) := by
    simp [text_binary]
  rw [hshape]
  exact reads_binary hleft hright hx

theorem readsBack_bracketed {op : UnaryOp} {e : Expr} (he : ReadsBack e) (hop : Bracketed op e) :
    ReadsBack (.unary op e) := by
  intro rest x _ hx
  have hoperand := he.stop (stops_cons (c := ')') (by decide) rest)
  have hshape : (unary op e).text.toList ++ rest
      = '-' :: '(' :: (e.text.toList ++ ')' :: rest) := by
    simp [text_bracketed hop]
  rw [front_bracketed hop] at hx ⊢
  rw [hshape]
  obtain ⟨rfl, -⟩ := hop
  exact reads_bracketed hoperand hx

theorem readsBack_bare {op : UnaryOp} {e : Expr} (he : ReadsBack e) (hop : ¬ Bracketed op e) :
    ReadsBack (.unary op e) := by
  intro rest x hrest hx
  rw [front_bare hop] at hx ⊢
  rw [text_bare hop, String.toList_append, List.append_assoc]
  cases op with
  | neg => exact reads_neg (he hrest hx)
  | not => exact reads_not (he hrest hx)
  | len => exact reads_len (he hrest hx)

theorem readsBack_member {o : Expr} {f : String} (ho : ReadsBack o) (hf : isIdent f = true) :
    ReadsBack (.member o f) := by
  intro rest x hrest hx
  have hshape : (member o f).text.toList ++ rest = o.text.toList ++ '.' :: (f.toList ++ rest) := by
    simp [text_member o hf]
  rw [hshape]
  exact ho (parted_cons (by decide) _) (goesOn_member hf hrest hx)

theorem readsBack_index {t k : Expr} (ht : ReadsBack t) (hk : ReadsBack k) :
    ReadsBack (.index t k) := by
  intro rest x _ hx
  have hkey : Reads (k.text.toList ++ ']' :: rest) (asRead k, ']' :: rest) :=
    hk.stop (stops_cons (by decide) _)
  have hshape : (index t k).text.toList ++ rest
      = t.text.toList ++ '[' :: (k.text.toList ++ ']' :: rest) := by
    simp [text_index]
  rw [hshape]
  exact ht (parted_cons (by decide) _) (goesOn_index hkey hx)

/-- Arguments are read back up to the closing parenthesis. -/
theorem readsMore_commas (a : Expr) (as : List Expr) (h : ∀ b ∈ a :: as, ReadsBack b)
    (rest : List Char) :
    ReadsMore ((commas ((a :: as).map text)).toList ++ ')' :: rest) ((a :: as).map asRead, rest) := by
  induction as generalizing a with
  | nil => exact readsMore_last ((h a List.mem_cons_self).stop (stops_cons (by decide) _))
  | cons b bs ih =>
      have hmore := ih b fun c hc => h c (List.mem_cons_of_mem _ hc)
      have hfirst := (h a List.mem_cons_self).stop (stops_cons (c := ',') (by decide)
        (' ' :: ((commas ((b :: bs).map text)).toList ++ ')' :: rest)))
      have hshape : (commas ((a :: b :: bs).map text)).toList ++ ')' :: rest
          = a.text.toList ++ ',' :: ' ' :: ((commas ((b :: bs).map text)).toList ++ ')' :: rest) := by
        simp [commas]
      rw [hshape]
      exact readsMore_cons hfirst hmore

theorem readsBack_call {f : Expr} {args : List Expr} (hf : ReadsBack f)
    (hargs : ∀ a ∈ args, ReadsBack a) : ReadsBack (.call f args) := by
  intro rest x _ hx
  have hshape : (call f args).text.toList ++ rest
      = f.text.toList ++ '(' :: ((commas (args.map text)).toList ++ ')' :: rest) := by
    simp [text_call]
  rw [front_call] at hx ⊢
  rw [hshape]
  refine hf (parted_cons (by decide) _) ?_
  cases args with
  | nil => exact goesOn_call_nil hx
  | cons a as => exact goesOn_call (readsMore_commas a as hargs rest) hx

theorem Plain.readsBack {e : Expr} (h : Plain e) : ReadsBack e := by
  induction h with
  | name hw hfree => exact readsBack_name hw hfree
  | binary _ _ hl hr => exact readsBack_binary hl hr
  | @unary op e _ he =>
      by_cases hop : Bracketed op e
      · exact readsBack_bracketed he hop
      · exact readsBack_bare he hop
  | member _ _ hf ho => exact readsBack_member ho hf
  | index _ _ _ ht hk => exact readsBack_index ht hk
  | call _ _ _ hf hargs => exact readsBack_call hf hargs

/-! ## Equal texts -/

/-- A reader takes the expression for itself, and nothing is at its front unless it is a bare prefix
operation. -/
def Settled (e : Expr) : Prop := asRead e = e ∧ (¬ e.Prefixed → front e = ([], e))

theorem settled_of_front {e : Expr} (h : front e = ([], e)) : Settled e :=
  ⟨asRead_of_front h, fun _ => h⟩

theorem settled_unary {op : UnaryOp} {e : Expr} (he : Settled e) : Settled (unary op e) := by
  by_cases hop : Bracketed op e
  · refine settled_of_front ?_
    rw [front_bracketed hop, he.1]
  · refine ⟨?_, fun h => absurd hop h⟩
    exact (asRead_of_front (front_bare hop)).trans (congrArg (unary op) he.1)

theorem Firm.settled {e : Expr} (h : Firm e) : Settled e := by
  induction h with
  | name _ _ => exact settled_of_front rfl
  | binary _ _ hl hr =>
      refine settled_of_front ?_
      rw [front_binary, hl.1, hr.1]
  | unary _ he => exact settled_unary he
  | member _ hbase _ ho =>
      refine settled_of_front ?_
      rw [front_member, ho.2 hbase]
  | index _ hbase _ ht hk =>
      refine settled_of_front ?_
      rw [front_index, ht.2 hbase, hk.1]
  | call _ hbase _ hf hargs =>
      refine settled_of_front ?_
      rw [front_call, hf.2 hbase, List.map_congr_left fun a ha => (hargs a ha).1, List.map_id']

/-- Plain expressions are printed alike exactly when a reader takes them for the same expression.  Firm
ones are printed alike only when they are equal. -/
theorem text_eq_text_iff {e e' : Expr} (he : Plain e) (he' : Plain e') :
    (e.text = e'.text ↔ asRead e = asRead e') ∧
      (Firm e → Firm e' → (e.text = e'.text ↔ e = e')) := by
  have hread : e.text = e'.text → asRead e = asRead e' := fun htext => by
    have hstop : Stops [] := fun c hc => nomatch hc
    have hfirst := he.readsBack.stop hstop
    rw [htext] at hfirst
    exact congrArg Prod.fst (hfirst.unique (he'.readsBack.stop hstop))
  refine ⟨⟨hread, fun heq => ?_⟩, fun hfirm hfirm' => ⟨fun htext => ?_, congrArg text⟩⟩
  · rw [← he.sameText.2, heq, he'.sameText.2]
  · rw [← hfirm.settled.1, hread htext, hfirm'.settled.1]

/-- A field of a double negation, `-(-x).f`, against the double negation of a field, `-(-x.f)`. -/
theorem text_ne_text_double_negation :
    let x : Expr := .name "x"
    let field : Expr := .member (.unary .neg (.unary .neg x)) "f"
    let negation : Expr := .unary .neg (.unary .neg (.member x "f"))
    Firm field ∧ Firm negation ∧ field.text ≠ negation.text := by
  intro x field negation
  have hx : Firm x := .name (by decide) (by decide)
  have hfield : Firm field := .member (.unary (.unary hx)) (fun h => h (by decide)) (by decide)
  have hnegation : Firm negation := .unary (.unary (.member hx id (by decide)))
  refine ⟨hfield, hnegation, fun htext => ?_⟩
  have heq := ((text_eq_text_iff hfield.plain hnegation.plain).2 hfield hnegation).mp htext
  exact absurd heq nofun

/-- The negation of a field and the field of a negation are both printed `-x.f`. -/
theorem text_eq_text_negated_field :
    let x : Expr := .name "x"
    let negation : Expr := .unary .neg (.member x "f")
    let field : Expr := .member (.unary .neg x) "f"
    Plain negation ∧ Plain field ∧ negation.text = "-x.f" ∧ field.text = "-x.f" ∧
      negation ≠ field := by
  intro x negation field
  have hx : Plain x := .name (by decide) (by decide)
  exact ⟨.unary (.member hx trivial (by decide)), .member (.unary hx) trivial (by decide),
    by decide +kernel, by decide +kernel, nofun⟩

end Expr

end Devirt
