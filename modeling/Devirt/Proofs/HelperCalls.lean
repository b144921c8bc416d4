import Devirt.Proofs.Collapsing
import Devirt.Proofs.Termination

set_option autoImplicit false

/-! # Register helper calls

The rule for the call of the register helper asks for two names.  It replaces both at a time, and
declines from then on if one of them has become more than a name.  So the two arguments of
`stk(a, b)` walk down their chains of aliases in step, and the one that arrives first at an element or
an operation stops the other where it is (`meet`).  A call that was stopped too early is never taken
up again (`stuck_rounds`).

Hence a call behind declarations of temporaries collapses completely exactly if no argument has to
wait for the other: if one expands to more than a name, the other takes no more replacements than it
(`simplify_helperCall`). -/

namespace Devirt

open Walk Walk.Progress Chain Temporaries Temporaries.Context

/-! ## Two arguments in step -/

theorem Expr.fill_not_name {P : String → Prop} {E : String → Expr} {e : Expr}
    (he : e.BuiltFrom P) (h : e.name? = none) : (e.fill E).name? = none := by
  cases he using Expr.BuiltFrom.rec_fork with
  | name n hn => contradiction
  | fork f l r _ _ => cases f <;> rfl

namespace Walk

open Devirt.Expr

section

variable (σ : String → Option Expr) (E : String → Expr)

/-- The answers for two arguments, which are given only if both are names. -/
def callAnswers (x y : Expr) : Option (Expr × Expr) :=
  if x.name? = none ∨ y.name? = none then none else answers σ x y

/-- What is left of two arguments when names are replaced in both at a time, for as long as both are
names. -/
def meet : Nat → Expr → Expr → Expr × Expr
  | 0, x, y => (x.settled E, y.settled E)
  | k + 1, x, y =>
    match callAnswers σ x y with
    | some q => meet k q.1 q.2
    | none => (x.settled E, y.settled E)

/-- Neither argument is more than a name while the other still has names to go. -/
def InStep (cost : String → Nat) (x y : Expr) : Prop :=
  ((x.fill E).name? = none → slotCost cost y ≤ slotCost cost x) ∧
    ((y.fill E).name? = none → slotCost cost x ≤ slotCost cost y)

end

theorem callAnswers_of_not_name {σ : String → Option Expr} {x y : Expr}
    (h : x.name? = none ∨ y.name? = none) : callAnswers σ x y = none :=
  if_pos h

/-- The rule sees the same before and after a visit. -/
theorem name?_settled (E : String → Expr) (x : Expr) : (x.settled E).name? = x.name? := by
  cases x <;> rfl

theorem callAnswers_names {σ : String → Option Expr} (a b : String) :
    callAnswers σ (.name a) (.name b) = answers σ (.name a) (.name b) :=
  if_neg (by simp [Expr.name?])

theorem names_or (x y : Expr) :
    (x.name? = none ∨ y.name? = none) ∨ ∃ a b, x = .name a ∧ y = .name b := by
  cases hx : x.name? with
  | none => exact .inl (.inl rfl)
  | some a =>
      cases hy : y.name? with
      | none => exact .inl (.inr rfl)
      | some b => exact .inr ⟨a, b, Usage.eq_name_of_name? hx, Usage.eq_name_of_name? hy⟩

theorem callAnswers_settled (σ : String → Option Expr) (E : String → Expr) (x y : Expr) :
    callAnswers σ (x.settled E) (y.settled E) = callAnswers σ x y := by
  rcases names_or x y with hnames | ⟨a, b, rfl, rfl⟩
  · rw [callAnswers_of_not_name hnames, callAnswers_of_not_name]
    rwa [name?_settled, name?_settled]
  · rfl

theorem meet_of_none {σ : String → Option Expr} {E : String → Expr} {x y : Expr} (k : Nat)
    (h : callAnswers σ x y = none) : meet σ E k x y = (x.settled E, y.settled E) := by
  cases k with
  | zero => rfl
  | succ k => rw [meet, h]

theorem meet_of_some {σ : String → Option Expr} {E : String → Expr} {x y : Expr} {q : Expr × Expr}
    (k : Nat) (h : callAnswers σ x y = some q) : meet σ E (k + 1) x y = meet σ E k q.1 q.2 := by
  rw [meet, h]

/-- Two arguments, as the rule sees them: either it declines, or both are names, and one of them at
least is replaced. -/
theorem callAnswers_cases (σ : String → Option Expr) (x y : Expr) :
    callAnswers σ x y = none ∨
      ∃ a b, x = .name a ∧ y = .name b ∧ (σ a ≠ none ∨ σ b ≠ none) ∧
        callAnswers σ x y = some ((σ a).getD x, (σ b).getD y) := by
  rcases names_or x y with hnames | ⟨a, b, rfl, rfl⟩
  · exact .inl (callAnswers_of_not_name hnames)
  · rw [callAnswers_names]
    by_cases hσ : σ a ≠ none ∨ σ b ≠ none
    · exact .inr ⟨a, b, rfl, rfl, hσ, answers_of_some (by exact hσ)⟩
    · rw [not_or, not_ne_iff, not_ne_iff] at hσ
      exact .inl (answers_of_none hσ.1 hσ.2)

theorem callAnswers_swap (σ : String → Option Expr) (x y : Expr) :
    callAnswers σ y x = (callAnswers σ x y).map Prod.swap := by
  rcases callAnswers_cases σ x y with hnone | ⟨a, b, rfl, rfl, hσ, hsome⟩
  · rcases callAnswers_cases σ y x with hnone' | ⟨b, a, rfl, rfl, hσ, -⟩
    · rw [hnone, hnone']
      rfl
    · rw [callAnswers_names, answers_of_some (by exact hσ.symm)] at hnone
      contradiction
  · rw [hsome, callAnswers_names, answers_of_some (by exact hσ.symm)]
    rfl

theorem meet_swap (σ : String → Option Expr) (E : String → Expr) (k : Nat) (x y : Expr) :
    meet σ E k y x = (meet σ E k x y).swap := by
  induction k generalizing x y with
  | zero => rfl
  | succ k ih =>
      cases h : callAnswers σ x y with
      | none => 
          rw [meet_of_none _ h, meet_of_none]
          · rfl
          · rw [callAnswers_swap, h]
            rfl
      | some q =>
          have hswap : callAnswers σ y x = some q.swap := by
            rw [callAnswers_swap, h]
            rfl
          rw [meet_of_some k h, meet_of_some k hswap]
          exact ih q.1 q.2

theorem slotCost_of_not_name (cost : String → Nat) {x : Expr} (h : x.name? = none) :
    slotCost cost x = 0 := by
  cases x <;> first | rfl | contradiction

/-- A visit leaves `x'` as it is, and it expands to what `x` does. -/
structure Rests (Known : String → Prop) (E : String → Expr) (x x' : Expr) : Prop where
  built : x'.BuiltFrom Known
  fill : x'.fill E = x.fill E
  settled : x'.settled E = x'

section

variable {p : Pass} {σ : String → Option Expr} {E : String → Expr} {cost : String → Nat}
  {Known : String → Prop} {gone : Stmt → Bool} (h : Expansion p σ E cost Known gone)
  (hexact : ∀ n e, Known n → σ n = some e → slotCost cost e + 1 = cost n)

include h hexact

/-- A replacement brings a name one step nearer to the end. -/
theorem name_step {n : String} (hn : Known n) :
    ((σ n).getD (.name n)).BuiltFrom Known ∧ ((σ n).getD (.name n)).fill E = E n ∧
      slotCost cost ((σ n).getD (.name n)) = cost n - 1 ∧ (σ n = none ↔ cost n = 0) := by
  cases hσ : σ n with
  | none =>
      obtain ⟨hE, hcost⟩ := h.stays n hn hσ
      exact ⟨hn, rfl, by rw [Option.getD_none, slotCost, hcost], by simp [hcost]⟩
  | some e =>
      obtain ⟨hbuilt, hE, -⟩ := h.replaced n e hn hσ
      have hcost := hexact n e hn hσ
      exact ⟨hbuilt, hE, by rw [Option.getD_some]; omega, by simp; omega⟩

/-- Without names to go an argument is expanded by a visit. -/
theorem settled_of_cost {x : Expr} (hx : x.BuiltFrom Known) (hcost : slotCost cost x = 0) :
    x.settled E = x.fill E := by
  cases x with
  | name n =>
      have hnone := (name_step h hexact hx).2.2.2.mpr hcost
      exact (h.stays n hx hnone).1.symm
  | _ => rfl

/-- Arguments in step for which there is no answer have no names to go. -/
theorem cost_of_inStep {x y : Expr} (hx : x.BuiltFrom Known) (hy : y.BuiltFrom Known)
    (hstep : InStep E cost x y) (hnone : callAnswers σ x y = none) :
    slotCost cost x = 0 ∧ slotCost cost y = 0 := by
  rcases names_or x y with hname | ⟨a, b, rfl, rfl⟩
  · rcases hname with hname | hname
    · have hcost := slotCost_of_not_name cost hname
      have hle := hstep.1 (fill_not_name hx hname)
      omega
    · have hcost := slotCost_of_not_name cost hname
      have hle := hstep.2 (fill_not_name hy hname)
      omega
  · rw [callAnswers_names] at hnone
    by_cases hσ : σ a ≠ none ∨ σ b ≠ none
    · rw [answers_of_some (by exact hσ)] at hnone
      contradiction
    · rw [not_or, not_ne_iff, not_ne_iff] at hσ
      exact ⟨(name_step h hexact hx).2.2.2.mp hσ.1, (name_step h hexact hy).2.2.2.mp hσ.2⟩

/-- Arguments in step are both expanded. -/
theorem meet_inStep {k : Nat} {x y : Expr} (hx : x.BuiltFrom Known) (hy : y.BuiltFrom Known)
    (hk : max (slotCost cost x) (slotCost cost y) ≤ k) (hstep : InStep E cost x y) :
    meet σ E k x y = (x.fill E, y.fill E) := by
  -- on the rounds; each takes one name from either argument that has names to go
  induction k generalizing x y with
  | zero =>
      rw [meet, settled_of_cost h hexact hx (by omega), settled_of_cost h hexact hy (by omega)]
  | succ k ih =>
      rcases callAnswers_cases σ x y with hnone | ⟨a, b, rfl, rfl, hσ, hsome⟩
      · obtain ⟨hcx, hcy⟩ := cost_of_inStep h hexact hx hy hstep hnone
        rw [meet_of_none _ hnone, settled_of_cost h hexact hx hcx, settled_of_cost h hexact hy hcy]
      · obtain ⟨hba, hEa, hca, -⟩ := name_step h hexact hx
        obtain ⟨hbb, hEb, hcb, -⟩ := name_step h hexact hy
        simp only [InStep, slotCost, Expr.fill] at hk hstep
        rw [meet_of_some k hsome, ih hba hbb, hEa, hEb]
        · rfl
        · omega
        · unfold InStep
          rw [hEa, hEb, hca, hcb]
          exact ⟨fun hc => Nat.sub_le_sub_right (hstep.1 hc) 1,
            fun hc => Nat.sub_le_sub_right (hstep.2 hc) 1⟩

omit hexact in
theorem rests_settled {x : Expr} (hx : x.BuiltFrom Known) : Rests Known E x (x.settled E) := by
  refine ⟨h.builtFrom_settled hx, ?_, h.settled_settled hx⟩
  rcases Expr.settled_eq E x with ⟨-, heq⟩ | ⟨-, heq⟩ <;> rw [heq]
  exact h.fill_fill hx

/-- Of what is left of the arguments the rule replaces nothing. -/
theorem meet_rests {k : Nat} {x y : Expr} (hx : x.BuiltFrom Known) (hy : y.BuiltFrom Known)
    (hk : max (slotCost cost x) (slotCost cost y) ≤ k) :
    callAnswers σ (meet σ E k x y).1 (meet σ E k x y).2 = none ∧
      Rests Known E x (meet σ E k x y).1 ∧ Rests Known E y (meet σ E k x y).2 := by
  induction k generalizing x y with
  | zero =>
      rcases callAnswers_cases σ x y with hnone | ⟨a, b, rfl, rfl, hσ, -⟩
      · exact ⟨(callAnswers_settled σ E x y).trans hnone, rests_settled h hx, rests_settled h hy⟩
      · have hpos := hσ.imp (name_step h hexact hx).2.2.2.not.mp (name_step h hexact hy).2.2.2.not.mp
        simp only [slotCost] at hk
        omega
  | succ k ih =>
      rcases callAnswers_cases σ x y with hnone | ⟨a, b, rfl, rfl, hσ, hsome⟩
      · rw [meet_of_none _ hnone]
        exact ⟨(callAnswers_settled σ E x y).trans hnone, rests_settled h hx, rests_settled h hy⟩
      · obtain ⟨hba, hEa, hca, -⟩ := name_step h hexact hx
        obtain ⟨hbb, hEb, hcb, -⟩ := name_step h hexact hy
        simp only [slotCost] at hk
        obtain ⟨hnone, hrx, hry⟩ := ih hba hbb (by omega)
        rw [meet_of_some k hsome]
        exact ⟨hnone, ⟨hrx.built, hrx.fill.trans hEa, hrx.settled⟩,
          hry.built, hry.fill.trans hEb, hry.settled⟩

/-- An argument that expands to more than a name stops the other, if that has more names to go. -/
theorem meet_apart {k : Nat} {x y : Expr} (hx : x.BuiltFrom Known) (hy : y.BuiltFrom Known)
    (hk : slotCost cost y ≤ k) (hname : (x.fill E).name? = none)
    (hlt : slotCost cost x < slotCost cost y) :
    ∃ m, Known m ∧ σ m ≠ none ∧ meet σ E k x y = (x.fill E, .name m) := by
  induction k generalizing x y with
  | zero => omega
  | succ k ih =>
      -- only a name has names to go
      obtain ⟨b, rfl⟩ : ∃ b, y = .name b := by
        cases y <;> first | exact ⟨_, rfl⟩ | contradiction
      obtain ⟨hbb, hEb, hcb, hib⟩ := name_step h hexact hy
      have hσb : σ b ≠ none := fun hc => by
        have := hib.mp hc
        simp only [slotCost] at hlt
        omega
      cases hx using Expr.BuiltFrom.rec_fork with
      | name a ha =>
          obtain ⟨hba, hEa, hca, hia⟩ := name_step h hexact ha
          have hpos : cost a ≠ 0 := by
            intro hc
            have hstays := (h.stays a ha (hia.mpr hc)).1
            change (E a).name? = none at hname
            rw [hstays] at hname
            contradiction
          simp only [slotCost] at hk hlt
          obtain ⟨m, hm, hσm, hmeet⟩ := ih hba hbb (by omega) (by rw [hEa]; exact hname) (by omega)
          refine ⟨m, hm, hσm, ?_⟩
          have hsome : callAnswers σ (.name a) (.name b) = some _ :=
            (callAnswers_names a b).trans (answers_of_some (.inr hσb))
          rw [meet_of_some k hsome]
          exact hmeet.trans (congrArg (·, _) hEa)
      | fork f l r hl hr =>
          have hnoname : (f.of l r).name? = none := by cases f <;> rfl
          refine ⟨b, hy, hσb, ?_⟩
          rw [meet_of_none _ (callAnswers_of_not_name (.inl hnoname)), settled_fork, fill_fork]
          rfl

end

/-! ## The walk of a call -/

section

variable {p : Pass} {σ : String → Option Expr} {E : String → Expr} {cost : String → Nat}
  {Known : String → Prop} {gone : Stmt → Bool} (h : Expansion p σ E cost Known gone)
  (hexact : ∀ n e, Known n → σ n = some e → slotCost cost e + 1 = cost n) {f : String}
  (hcall : ∀ x y, p.onStmt (.call (.name f) [x, y]) =
    (callAnswers σ x y).map fun q => .call (.name f) [q.1, q.2])

include h hexact hcall

/-- The walk of a call settles the arguments, and replaces names in both for as long as both are
names. -/
theorem settles_call {k : Nat} (hk : k < maxRounds) {x y : Expr} (hx : x.BuiltFrom Known)
    (hy : y.BuiltFrom Known) (hlx : exprLevels (x.fill E) ≤ maxDepth)
    (hly : exprLevels (y.fill E) ≤ maxDepth)
    (hcost : max (slotCost cost x) (slotCost cost y) ≤ k) :
    Settles p (.call (.name f) [x, y])
      (.call (.name f) [(meet σ E k x y).1, (meet σ E k x y).2])
      ((x.BuiltFrom fun n => σ n = none) ∧ y.BuiltFrom fun n => σ n = none) := by
  intro fuel hfuel w hw
  rw [walkStmt]
  refine settle_reaches
    (fun c s => ∃ x' y', s = .call (.name f) [x', y'] ∧ x'.BuiltFrom Known ∧ y'.BuiltFrom Known ∧
      x'.fill E = x.fill E ∧ y'.fill E = y.fill E ∧
      max (slotCost cost x') (slotCost cost y') ≤ c ∧ meet σ E c x' y' = meet σ E k x y)
    (fun s => ∀ x' y', s = .call (.name f) [x', y'] →
      (x'.BuiltFrom fun n => σ n = none) ∧ y'.BuiltFrom fun n => σ n = none)
    ?_ hk ⟨x, y, rfl, hx, hy, rfl, rfl, hcost, rfl⟩ hw |>.mono ?_
  · rintro c _ w ⟨x', y', rfl, hx', hy', hfx, hfy, hc, hmeet⟩ hw
    obtain ⟨fuel, rfl⟩ : ∃ k, fuel = k + 1 := ⟨fuel - 1, by unfold maxDepth at hfuel; omega⟩
    have hwx : Reaches (walkExpr p (fuel + 1) 0 x' w) _ w _ :=
      h.walkExpr_reaches (fuel + 1) hx' hw (by rw [hfx]; omega) (by rw [hfx]; omega)
    have hwy : Reaches (walkExpr p (fuel + 1) 0 y' (walkExpr p (fuel + 1) 0 x' w).2) _ _ _ :=
      h.walkExpr_reaches (fuel + 1) hy' hwx.going (by rw [hfy]; omega) (by rw [hfy]; omega)
    refine ⟨.call (.name f) [x'.settled E, y'.settled E], ⟨?_, ?_, fun hstill => ?_⟩, ?_⟩
    · simp only [visitStmt, visitList,
        Expansion.walkExpr_name p fuel f hw (by decide : 0 < maxDepth), hwx.result, hwy.result]
    · simp only [visitStmt, visitList,
        Expansion.walkExpr_name p fuel f hw (by decide : 0 < maxDepth)]
      exact hwy.going
    · obtain ⟨hsx, hsy⟩ := hstill x' y' rfl
      simp only [visitStmt, visitList,
        Expansion.walkExpr_name p fuel f hw (by decide : 0 < maxDepth)]
      exact (hwy.quiet fun _ => hsy).trans (hwx.quiet fun _ => hsx)
    · rw [hcall]
      rcases callAnswers_cases σ x' y' with hnone | ⟨a, b, rfl, rfl, hσ, hsome⟩
      · refine .inl ⟨?_, ?_⟩
        · rw [callAnswers_settled, hnone]
          rfl
        · rw [← hmeet, meet_of_none _ hnone]
      · obtain ⟨hba, hEa, hca, hia⟩ := name_step h hexact hx'
        obtain ⟨hbb, hEb, hcb, hib⟩ := name_step h hexact hy'
        have hpos : cost a ≠ 0 ∨ cost b ≠ 0 := hσ.imp hia.not.mp hib.not.mp
        simp only [slotCost] at hc
        obtain ⟨c, rfl⟩ : ∃ m, c = m + 1 := ⟨c - 1, by omega⟩
        rw [meet_of_some c hsome] at hmeet
        refine .inr ⟨_, c, congrArg (Option.map _) hsome, by omega, ?_, fun hstill => ?_⟩
        · refine ⟨_, _, rfl, hba, hbb, hEa.trans hfx, hEb.trans hfy, ?_, hmeet⟩
          rw [hca, hcb]
          omega
        · obtain ⟨hsa, hsb⟩ := hstill _ _ rfl
          exact hσ.elim (· hsa) (· hsb)
  · rintro ⟨hsx, hsy⟩ x' y' heq
    cases heq
    exact ⟨hsx, hsy⟩

/-- Nothing is left to do after the walk of a call. -/
theorem last_call {x y : Expr} (hx : x.BuiltFrom Known) (hy : y.BuiltFrom Known)
    (hlx : exprLevels (x.fill E) ≤ maxDepth) (hly : exprLevels (y.fill E) ≤ maxDepth) :
    let q := meet σ E (maxRounds - 1) x y
    Last p (.call (.name f) [x, y]) (.call (.name f) [q.1, q.2]) False := by
  intro q
  have hk : maxRounds - 1 < maxRounds := by decide
  have hcost : ∀ x y, max (slotCost cost x) (slotCost cost y) ≤ maxRounds - 1 := fun x y =>
    max_le (Nat.le_sub_one_of_lt (h.slotCost_lt x)) (Nat.le_sub_one_of_lt (h.slotCost_lt y))
  obtain ⟨hnone, hrx, hry⟩ := meet_rests h hexact hx hy (hcost x y)
  have hfirst := settles_call h hexact hcall hk hx hy hlx hly (hcost x y)
  have hagain := settles_call h hexact hcall hk hrx.built hry.built (hrx.fill.symm ▸ hlx)
    (hry.fill.symm ▸ hly) (hcost _ _)
  rw [meet_of_none _ hnone, hrx.settled, hry.settled] at hagain
  exact ⟨fun fuel hfuel w hw => (hfirst fuel hfuel w hw).mono False.elim,
    fun fuel hfuel w hw => (hagain fuel hfuel w hw).mono False.elim, rfl, rfl⟩

/-- A call without names to be replaced is left as it is. -/
theorem last_still {x y : Expr} (hx : x.BuiltFrom fun n => Known n ∧ σ n = none)
    (hy : y.BuiltFrom fun n => Known n ∧ σ n = none) (hlx : exprLevels x ≤ maxDepth)
    (hly : exprLevels y ≤ maxDepth) :
    Last p (.call (.name f) [x, y]) (.call (.name f) [x, y]) True := by
  have hfill : ∀ {e : Expr}, (e.BuiltFrom fun n => Known n ∧ σ n = none) →
      e.fill E = e ∧ e.settled E = e ∧ slotCost cost e = 0 := by
    intro e he
    have hE := fill_of_stays he fun n hn => (h.stays n hn.1 hn.2).1
    cases he using BuiltFrom.rec_fork with
    | name n hn => exact ⟨hE, rfl, (h.stays n hn.1 hn.2).2⟩
    | fork f l r => exact ⟨hE, by rw [settled_fork, ← fill_fork, hE], slotCost_fork ..⟩
  obtain ⟨hfx, hsx, hcx⟩ := hfill hx
  obtain ⟨hfy, hsy, hcy⟩ := hfill hy
  have hbx := hx.mono fun _ hn => hn.2
  have hby := hy.mono fun _ hn => hn.2
  have hcall := settles_call h hexact hcall (by decide : 0 < maxRounds)
    (hx.mono fun _ hn => hn.1) (hy.mono fun _ hn => hn.1) (by rwa [hfx]) (by rwa [hfy]) (by omega)
  rw [meet, hsx, hsy] at hcall
  have hsettles : Settles p (.call (.name f) [x, y]) (.call (.name f) [x, y]) True :=
    fun fuel hfuel w hw => (hcall fuel hfuel w hw).mono fun _ => ⟨hbx, hby⟩
  exact ⟨hsettles, hsettles, rfl, rfl⟩

end

end Walk

/-! ## A call that was stopped -/

/-- A call with a name `m` for one argument, and something else than a name for the other. -/
inductive Stuck (m : String) : Stmt → Prop where
  | left (f : String) {x : Expr} : x.name? = none → Stuck m (.call (.name f) [x, .name m])
  | right (f : String) {y : Expr} : y.name? = none → Stuck m (.call (.name f) [.name m, y])

/-- The pass keeps names and what is none apart, asks for two names in a call, and removes nothing but
declarations. -/
structure Pass.LeavesStuck (p : Pass) : Prop where
  expr : ∀ e e', ExprStep p e e' → e.name? = none ∧ e'.name? = none
  call : ∀ m s, Stuck m s → p.onStmt s = none
  block : ∀ b b' m s, p.block b = some b' → Stuck m s → s ∈ b → s ∈ b'

section

variable {p : Pass} (hp : p.LeavesStuck) {m : String}

include hp

theorem stuck_stmt {s s' : Stmt} (h : StmtStep p s s') (hs : Stuck m s) : Stuck m s' := by
  cases hs with
  | left f hx =>
      cases h with
      | hook h => rw [hp.call m _ (.left f hx)] at h; contradiction
      | callFunc h => exact absurd (hp.expr _ _ h).1 (by simp [Expr.name?])
      | callArgs h =>
          cases h with
          | head h => exact .left f (hp.expr _ _ h).2
          | tail h =>
              cases h with
              | head h => exact absurd (hp.expr _ _ h).1 (by simp [Expr.name?])
              | tail h => cases h
  | right f hy =>
      cases h with
      | hook h => rw [hp.call m _ (.right f hy)] at h; contradiction
      | callFunc h => exact absurd (hp.expr _ _ h).1 (by simp [Expr.name?])
      | callArgs h =>
          cases h with
          | head h => exact absurd (hp.expr _ _ h).1 (by simp [Expr.name?])
          | tail h =>
              cases h with
              | head h => exact .right f (hp.expr _ _ h).2
              | tail h => cases h

theorem stuck_step {b b' : Block} (h : BlockStep p b b') (hb : ∃ s ∈ b, Stuck m s) :
    ∃ s ∈ b', Stuck m s := by
  obtain ⟨s, hs, hstuck⟩ := hb
  cases h with
  | hook h => exact ⟨s, hp.block _ _ m s h hstuck hs, hstuck⟩
  | items h =>
      induction h with
      | head h =>
          rcases List.mem_cons.mp hs with rfl | hs
          · exact ⟨_, List.mem_cons_self, stuck_stmt hp h hstuck⟩
          · exact ⟨s, List.mem_cons_of_mem _ hs, hstuck⟩
      | tail _ ih =>
          rcases List.mem_cons.mp hs with rfl | hs
          · exact ⟨s, List.mem_cons_self, hstuck⟩
          · obtain ⟨s', hs', hstuck'⟩ := ih hs
            exact ⟨s', List.mem_cons_of_mem _ hs', hstuck'⟩

end

theorem leavesStuck_folding : Folding.pass.LeavesStuck where
  expr _ _ h := (Folding.answers []).name?_step h
  call _ _ hs := by cases hs <;> rfl
  block _ _ _ _ h _ _ := by contradiction

theorem leavesStuck_temporaries (options : Options) (b : Block) :
    (Context.mk options b.usage).pass.LeavesStuck where
  expr _ _ h := (Temporaries.Context.answers options b).name?_step h
  call m s hs := by
    cases hs with
    | left f hx => rename_i x; cases x <;> first | rfl | contradiction
    | right f hy => rename_i y; cases y <;> first | rfl | contradiction
  block b b' m s h hs hmem := by
    rw [block_eq_some h, List.mem_filter]
    refine ⟨hmem, ?_⟩
    cases hs <;> rfl

/-- A call that was stopped stays so in every further round. -/
theorem stuck_rounds (options : Options) (limit : Nat) {b : Block} {m : String}
    (h : ∃ s ∈ b, Stuck m s) (report : RunReport) :
    ∃ s ∈ (Pipeline.rounds (stages options) limit b report).1, Stuck m s := by
  refine Pipeline.rounds_preserves (P := fun b => ∃ s ∈ b, Stuck m s) (fun r hr b hb => ?_) limit h
    report
  rcases List.mem_pair.mp hr with rfl | rfl
  · exact Pass.walk_preserves (fun _ _ => stuck_step leavesStuck_folding) hb
  · exact Pass.walk_preserves (fun _ _ => stuck_step (leavesStuck_temporaries options b)) hb

/-! ## A call behind declarations -/

/-- Declarations of temporaries, each a step from names to a name, and names `a` and `b` for the call
of the register helper behind them. -/
structure Arguments (options : Options) (links : List Link) (a b : String) : Prop where
  nodup : (links.map Link.name).Nodup
  temporary : ∀ l ∈ links, IsTemporary options l.name
  step : ∀ l ∈ links, IsStep l.value
  earlier : ∀ i (hi : i < links.length), ∀ n ∈ links[i].value.names, n ∈ links.map Link.name →
    n ∈ (links.take i).map Link.name
  /-- What is not a name may be read once in the whole block. -/
  once : ∀ l ∈ links, l.value.name? = none →
    (links.flatMap (fun l => l.value.names) ++ [a, b]).count l.name ≤ 1
  helper : options.registerHelper ∉ links.map Link.name
  short : links.length + 1 < maxRounds

namespace Chain

theorem exprLevels_fill_le {e : Expr} (he : IsStep e) {E : String → Expr} {k : Nat}
    (hE : ∀ n, exprLevels (E n) ≤ k) : exprLevels (e.fill E) ≤ k + 1 := by
  cases he with
  | name n => exact (hE n).trans (Nat.le_succ k)
  | index t x => simp [Expr.fill, exprLevels, hE t, hE x]
  | binary op l r => simp [Expr.fill, exprLevels, hE l, hE r]

/-- Every declaration adds one level at most. -/
theorem exprLevels_expansion_le {links : List Link} (h : ∀ l ∈ links, IsStep l.value) (n : String) :
    exprLevels (expansion links n) ≤ links.length + 1 := by
  have hrun : ∀ (links : List Link) (s : String → Expr) (k : Nat), (∀ l ∈ links, IsStep l.value) →
      (∀ n, exprLevels (s n) ≤ k) →
      ∀ n, exprLevels (solve (fun E e => e.fill E) s links n) ≤ k + links.length := by
    intro links
    induction links with
    | nil => exact fun s k _ hs n => hs n
    | cons l links ih =>
        intro s k hstep hs n
        obtain ⟨hl, hlinks⟩ := List.forall_mem_cons.mp hstep
        have hnext : ∀ m, exprLevels (Function.update s l.name (l.value.fill s) m) ≤ k + 1 := by
          intro m
          rw [Function.update_apply]
          split
          · exact exprLevels_fill_le hl hs
          · exact (hs m).trans (Nat.le_succ k)
        have hrest := ih _ _ hlinks hnext n
        rw [solve, List.length_cons]
        omega
  have hall := hrun links .name 1 h (fun _ => le_rfl) n
  rw [expansion]
  omega

theorem readsEnd_call {c : Chain} {P : String → Prop} (hkey : c.key.BuiltFrom P)
    (hvalue : c.value.BuiltFrom P) : c.ReadsEnd (.call (.name c.table) [c.key, c.value]) := by
  refine ⟨c.table :: c.key.names ++ c.value.names, List.perm_append_comm, fun next => ?_⟩
  simp [Usage.stmtEvents, Usage.exprsEvents, Usage.exprEvents, exprEvents_eq hkey, exprEvents_eq hvalue]

end Chain

section

variable {options : Options} {links : List Link} {a b : String}

/-- The declarations and the names that the call reads. -/
def callChain (options : Options) (links : List Link) (a b : String) : Chain :=
  ⟨links, 0, options.registerHelper, .name a, .name b⟩

/-- A call of the register helper. -/
abbrev helperCall (options : Options) (x y : Expr) : Stmt :=
  .call (.name options.registerHelper) [x, y]

/-- The rules, prepared for the declarations with the call behind them. -/
abbrev callRules (options : Options) (links : List Link) (a b : String) : Temporaries.Context :=
  (callChain options links a b).context options (helperCall options (.name a) (.name b))

/-- What the first walk leaves of the arguments. -/
def leftOver (options : Options) (links : List Link) (a b : String) : Expr × Expr :=
  meet (fun n => (callRules options links a b).substitute (.name n)) (expansion links)
    (maxRounds - 1) (.name a) (.name b)

variable (h : Arguments options links a b)

include h

theorem Arguments.levels (n : String) : exprLevels (expansion links n) ≤ maxDepth := by
  have hle := exprLevels_expansion_le h.step n
  have hshort : links.length + 1 < 256 := h.short
  exact hle.trans (by unfold maxDepth; omega)

theorem Arguments.expandable :
    (callChain options links a b).Expandable options (· ∈ links.map Link.name) := by
  refine expandable_of_earlier 0 h.nodup (fun l hl => List.mem_map_of_mem hl) h.temporary h.step
    h.earlier (fun l hl hname => ?_) h.helper (fun _ _ hn => hn) ?_ fun l _ => h.levels l.name
  · have hone := h.once l hl hname
    have hhelper : options.registerHelper ≠ l.name := fun hc =>
      h.helper (hc ▸ List.mem_map_of_mem hl)
    simp only [List.count_append, List.count_cons, List.count_nil, beq_iff_eq, hhelper] at hone ⊢
    simp only [↓reduceIte]
    omega
  · have hle : aliases links ≤ links.length := List.countP_le_length
    have := h.short
    omega

omit h in
theorem mem_reads_call : a ∈ (callChain options links a b).reads ∧
    b ∈ (callChain options links a b).reads :=
  ⟨Chain.mem_reads.mpr (.inr (.inr (.inr List.mem_cons_self))),
    Chain.mem_reads.mpr (.inr (.inl List.mem_cons_self))⟩

/-- A name is brought one step nearer to the end by what replaces it. -/
theorem Arguments.exact {s : Stmt} (hs : (callChain options links a b).ReadsEnd s) (n : String)
    (e : Expr) (hn : n ∈ (callChain options links a b).reads)
    (he : ((callChain options links a b).context options s).substitute (.name n) = some e) :
    slotCost (cost links) e + 1 = cost links n := by
  have hsound := h.expandable.toSound
  by_cases htemp : n ∈ links.map Link.name
  · obtain ⟨l, hl, rfl⟩ := List.mem_map.mp htemp
    rw [substitute_of_mem h.expandable hs hl hn] at he
    cases he
    exact (cost_link hsound hl).symm
  · rw [substitute_of_not_temp hsound hs htemp] at he
    contradiction

end

/-! ## The rules and a call of the helper -/

theorem call_temporaries (c : Temporaries.Context) (x y : Expr) :
    c.pass.onStmt (.call (.name c.options.registerHelper) [x, y]) =
      (callAnswers (fun n => c.substitute (.name n)) x y).map fun q =>
        .call (.name c.options.registerHelper) [q.1, q.2] := by
  rcases names_or x y with hnames | ⟨a, b, rfl, rfl⟩
  · rw [callAnswers_of_not_name hnames]
    rcases hnames with hname | hname
    · cases x <;> first | rfl | contradiction
    · cases y <;> first | contradiction | (cases x <;> rfl)
  · have hpair : callAnswers (fun n => c.substitute (.name n)) (.name a) (.name b) =
        c.substitutePair (.name a) (.name b) := callAnswers_names a b
    rw [hpair]
    change Option.map _ (c.call (.name _) [.name a, .name b]) = _
    rw [Temporaries.Context.call, if_pos rfl, Option.map_map]
    rfl

theorem call_folding (f : String) (x y : Expr) :
    Folding.pass.onStmt (.call (.name f) [x, y]) =
      (callAnswers (fun _ => none) x y).map fun q => .call (.name f) [q.1, q.2] := by
  have hnone : callAnswers (fun _ => none) x y = none := by
    rcases callAnswers_cases (fun _ => none) x y with hnone | ⟨a, b, -, -, hσ, -⟩
    · exact hnone
    · exact absurd hσ (by simp)
  rw [hnone]
  rfl

/-- A call without temporaries is not changed. -/
theorem stays_call {options : Options} {temp : String → Prop} {x y : Expr}
    (hx : x.BuiltFrom fun n => ¬ temp n) (hy : y.BuiltFrom fun n => ¬ temp n)
    (hlx : exprLevels x ≤ maxDepth) (hly : exprLevels y ≤ maxDepth) :
    Stays options temp (.call (.name options.registerHelper) [x, y]) where
  folding := last_still expansion_folding (fun _ _ _ hc => by contradiction)
    (call_folding _) (hx.mono fun _ _ => ⟨trivial, rfl⟩) (hy.mono fun _ _ => ⟨trivial, rfl⟩) hlx hly
  temporaries d hd hs := by
    have hstill : ∀ n, ¬ temp n → (d.context options
        (.call (.name options.registerHelper) [x, y])).substitute (.name n) = none :=
      fun n hn => substitute_of_not_temp hd.toSound hs hn
    refine last_still (expansion_expanded hd hs) (fun n e hn he => ?_) (call_temporaries _)
      (hx.mono fun n hn => ⟨hn, hstill n hn⟩) (hy.mono fun n hn => ⟨hn, hstill n hn⟩) hlx hly
    rw [hstill n hn] at he
    contradiction

section

variable {options : Options} {links : List Link} {a b : String}
  (h : Arguments options links a b)

include h

/-- The call stands behind the declarations like the assignment of a chain. -/
theorem Arguments.readsEnd :
    (callChain options links a b).ReadsEnd (helperCall options (.name a) (.name b)) :=
  readsEnd_call h.expandable.key_built h.expandable.value_built

theorem Arguments.expansion :
    Expansion (callRules options links a b).pass
      (fun n => (callRules options links a b).substitute (.name n)) (Chain.expansion links)
      (cost links) (· ∈ (callChain options links a b).reads)
      (callRules options links a b).isDeadStmt :=
  expansion_expandable h.expandable h.readsEnd

theorem Arguments.cost_le (x : Expr) : slotCost (cost links) x ≤ maxRounds - 1 :=
  Nat.le_sub_one_of_lt (h.expansion.slotCost_lt x)

theorem Arguments.last :
    Last (callRules options links a b).pass (helperCall options (.name a) (.name b))
      (helperCall options (leftOver options links a b).1 (leftOver options links a b).2) False :=
  last_call (x := .name a) (y := .name b) h.expansion (h.exact h.readsEnd) (call_temporaries _)
    mem_reads_call.1 mem_reads_call.2 (h.levels a) (h.levels b)

omit h in
theorem last_folding_call (options : Options) (a b : String) :
    Last Folding.pass (helperCall options (.name a) (.name b))
      (helperCall options (.name a) (.name b)) True := by
  have hpos : 1 ≤ maxDepth := by decide
  have hstays : Stays options (fun _ => False) (helperCall options (.name a) (.name b)) :=
    stays_call (x := .name a) (y := .name b) not_false not_false hpos hpos
  exact hstays.folding

/-! ### Arguments in step -/

theorem Arguments.leftOver_inStep
    (hstep : InStep (Chain.expansion links) (cost links) (.name a) (.name b)) :
    leftOver options links a b = (Chain.expansion links a, Chain.expansion links b) :=
  meet_inStep h.expansion (h.exact h.readsEnd) mem_reads_call.1 mem_reads_call.2
    (max_le (h.cost_le _) (h.cost_le _)) hstep

/-- Arguments in step collapse completely. -/
theorem rounds_inStep (hstep : InStep (expansion links) (cost links) (.name a) (.name b))
    {limit : Nat} (hlimit : links.length + 2 ≤ limit) (report : RunReport) :
    Ends (Pipeline.rounds (stages options) limit
        (links.map Link.stmt ++ [helperCall options (.name a) (.name b)]) report)
      [helperCall options (expansion links a) (expansion links b)]
      (report.iterations + links.length + 2) := by
  have hfinal := expanded_of_expandable h.expandable
  have hlast := h.last
  rw [h.leftOver_inStep hstep] at hlast
  exact rounds_expandable h.expandable h.readsEnd
    (readsEnd_call hfinal.key_final hfinal.value_final) (last_folding_call options a b) hlast
    (stays_call hfinal.key_final hfinal.value_final (h.levels a) (h.levels b)) hlimit report

/-! ### Arguments that are not in step -/

/-- The first walk stops the call. -/
theorem Arguments.stuck
    (hapart : ¬ InStep (Chain.expansion links) (cost links) (.name a) (.name b)) :
    ∃ m ∈ links.map Link.name,
      Stuck m (helperCall options (leftOver options links a b).1 (leftOver options links a b).2) := by
  have hdeclared : ∀ m, (callRules options links a b).substitute (.name m) ≠ none →
      m ∈ links.map Link.name := fun m hm =>
    by_contra fun hc => hm (substitute_of_not_temp h.expandable.toSound h.readsEnd hc)
  have hapartOf := @meet_apart _ _ _ _ _ _ h.expansion (h.exact h.readsEnd) (maxRounds - 1)
  rw [InStep, not_and_or, Classical.not_imp, Classical.not_imp, Nat.not_le, Nat.not_le] at hapart
  unfold leftOver
  rcases hapart with ⟨hname, hlt⟩ | ⟨hname, hlt⟩
  · obtain ⟨m, -, hm, hmeet⟩ :=
      hapartOf mem_reads_call.1 mem_reads_call.2 (h.cost_le _) hname hlt
    rw [hmeet]
    exact ⟨m, hdeclared m hm, .left _ hname⟩
  · obtain ⟨m, -, hm, hmeet⟩ :=
      hapartOf mem_reads_call.2 mem_reads_call.1 (h.cost_le _) hname hlt
    rw [meet_swap, hmeet]
    exact ⟨m, hdeclared m hm, .right _ hname⟩

/-- A call that was stopped is not expanded. -/
theorem Arguments.not_stuck {m : String} (hm : m ∈ links.map Link.name) :
    ¬ Stuck m (helperCall options (Chain.expansion links a) (Chain.expansion links b)) := by
  have hfree : ∀ n, n ∈ (callChain options links a b).reads →
      Chain.expansion links n ≠ .name m := by
    intro n hn hc
    have hbuilt : (Chain.expansion links n).BuiltFrom _ :=
      builtFrom_expansion h.expandable.toSound hn
    rw [hc] at hbuilt
    exact hbuilt.2 hm
  generalize hea : Chain.expansion links a = x
  generalize heb : Chain.expansion links b = y
  intro hstuck
  cases hstuck with
  | left => exact hfree b mem_reads_call.2 heb
  | right => exact hfree a mem_reads_call.1 hea

theorem rounds_apart (hapart : ¬ InStep (expansion links) (cost links) (.name a) (.name b))
    {limit : Nat} (hlimit : 0 < limit) (report : RunReport) :
    (Pipeline.rounds (stages options) limit
        (links.map Link.stmt ++ [helperCall options (.name a) (.name b)]) report).1 ≠
      [helperCall options (expansion links a) (expansion links b)] := by
  obtain ⟨m, hm, hstuck⟩ := h.stuck hapart
  obtain ⟨limit, rfl⟩ : ∃ k, limit = k + 1 := ⟨limit - 1, by omega⟩
  have hlevels : ∀ l ∈ links, l.value.name? = none → exprLevels l.value ≤ maxDepth :=
    fun l hl _ => (exprLevels_of_isStep (h.step l hl)).trans (by decide)
  have hfold := quiet_folding h.expandable.toSound hlevels (last_folding_call options a b)
  obtain ⟨n, hround, -, -⟩ :=
    round_eq hfold (walk_expandable h.expandable h.readsEnd h.last)
  have hfirst : ∀ b s, Stuck m s → ∃ s' ∈ Chain.before b s, Stuck m s' := fun b s hs =>
    ⟨s, List.mem_append_right _ List.mem_cons_self, hs⟩
  have hleft : ∃ s ∈ (Pipeline.rounds (stages options) (limit + 1)
      ((callChain options links a b).before (helperCall options (.name a) (.name b)))
      report).1, Stuck m s := by
    rw [Pipeline.rounds_succ hround]
    split
    · exact hfirst _ _ hstuck
    · exact stuck_rounds options limit (hfirst _ _ hstuck) _
  intro heq
  obtain ⟨s, hs, hs'⟩ := hleft
  obtain rfl := List.mem_singleton.mp (heq ▸ hs)
  exact h.not_stuck hm hs'

/-- Behind declarations of temporaries, each for a name, an element of a named table or an operation on
two names, a call of the register helper with two names collapses completely exactly if its arguments
are in step: one that expands to more than a name takes no fewer replacements than the other. -/
theorem simplify_helperCall (hlimit : links.length + 2 ≤ options.maxIterations) :
    let r := Block.simplify options none
      (links.map Link.stmt ++ [.call (.name options.registerHelper) [.name a, .name b]])
    r.1 = [.call (.name options.registerHelper) [expansion links a, expansion links b]] ∧
        r.2.converged = true ∧ r.2.iterations ≤ links.length + 2 ↔
      ((expansion links a).name? = none → cost links b ≤ cost links a) ∧
        ((expansion links b).name? = none → cost links a ≤ cost links b) := by
  intro r
  constructor
  · rintro ⟨hblock, -, -⟩
    by_contra hapart
    have hpos : 0 < options.maxIterations := by omega
    exact rounds_apart h hapart hpos ⟨0, 0, false⟩ hblock
  · intro hstep
    have hend := rounds_inStep h hstep hlimit ⟨0, 0, false⟩
    exact ⟨hend.block, hend.converged, hend.iterations.trans (by simp)⟩

end

/-- Both arguments of `stk(_3, _5)` are two replacements away from an element. -/
def abreast : List Link :=
  [⟨1, "_1", .name "inst"⟩, ⟨2, "_2", .index (.name "_1") (.name "OP_A")⟩, ⟨3, "_3", .name "_2"⟩,
   ⟨4, "_4", .index (.name "pc") (.name "OP_B")⟩, ⟨5, "_5", .name "_4"⟩]

/-- `stk(_3, _5)` becomes `stk(inst[OP_A], pc[OP_B])`. -/
theorem simplify_helperCall_abreast :
    let r := Block.simplify .standard none
      (abreast.map Link.stmt ++ [.call (.name "stk") [.name "_3", .name "_5"]])
    r.1 = [.call (.name "stk")
        [.index (.name "inst") (.name "OP_A"), .index (.name "pc") (.name "OP_B")]] ∧
      r.2.converged = true ∧ r.2.iterations ≤ 7 := by
  have h : Arguments .standard abreast "_3" "_5" := by
    refine ⟨by decide, by decide, ?_, by decide, ?_, by decide, by decide⟩
    · simp only [abreast, List.forall_mem_cons]
      exact ⟨.name _, .index _ _, .name _, .index _ _, .name _, by simp⟩
    · simp only [abreast, List.forall_mem_cons]
      exact ⟨by decide, by decide, by decide, by decide, by decide, by simp⟩
  exact (simplify_helperCall h (by decide)).mpr ⟨fun _ => by decide, fun _ => by decide⟩

/-- The second argument of `stk(_1, _3)` is one replacement further away than the first. -/
def apart : List Link :=
  [⟨1, "_1", .index (.name "t") (.name "k")⟩, ⟨2, "_2", .index (.name "u") (.name "v")⟩,
   ⟨3, "_3", .name "_2"⟩]

/-- `stk(_1, _3)` becomes `local _2 = u[v]; stk(t[k], _2)`, and the run has converged; that the
arguments expand to `t[k]` and `u[v]` is not enough. -/
theorem simplify_helperCall_apart :
    ¬ ∀ (options : Options) (links : List Link) (a b : String), Arguments options links a b →
      links.length + 2 ≤ options.maxIterations →
      (Block.simplify options none
        (links.map Link.stmt ++ [.call (.name options.registerHelper) [.name a, .name b]])).1 =
        [.call (.name options.registerHelper) [expansion links a, expansion links b]] := by
  intro h
  have harguments : Arguments .standard apart "_1" "_3" := by
    refine ⟨by decide, by decide, ?_, by decide, ?_, by decide, by decide⟩
    · simp only [apart, List.forall_mem_cons]
      exact ⟨.index _ _, .index _ _, .name _, by simp⟩
    · simp only [apart, List.forall_mem_cons]
      exact ⟨by decide, by decide, by decide, by simp⟩
  have hrun : (Block.simplify .standard none
      (apart.map Link.stmt ++ [.call (.name "stk") [.name "_1", .name "_3"]])) =
      ([.declare 2 ["_2"] [.index (.name "u") (.name "v")],
        .call (.name "stk") [.index (.name "t") (.name "k"), .name "_2"]], ⟨3, 2, true⟩) := rfl
  have hlength : (Block.simplify .standard none
      (apart.map Link.stmt ++ [.call (.name "stk") [.name "_1", .name "_3"]])).1.length = 2 := by
    rw [hrun]
    rfl
  have hone := congrArg List.length (h .standard apart "_1" "_3" harguments (by decide))
  exact absurd (hlength.symm.trans hone) (by decide)

end Devirt
