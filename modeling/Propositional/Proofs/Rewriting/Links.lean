/-
A chain of rewrites link by link. Its rules are applied in order, each to what the
ones before it have made of the head (`chain_eq_carry`), so a chain comes apart at
any of its links (`carry_append`). What it has found in its way is what its steps
have found, in order (`carry_mismatches`), and each step stays within the atoms of the
head (`stepsFrom_over`).
-/
import Propositional.Proofs.Rewriting.Scope

namespace Propositional

/-- A formula, or one with inline rules applied to it one after the other. -/
inductive Node.IsInline : Node → Prop
  | formula {n : Node} : n.IsFormula → IsInline n
  | apply {target lhs rhs : Node} : IsInline target → lhs.IsFormula → rhs.IsFormula →
      IsInline (.application target (.equivalence lhs rhs))

namespace Rewrite

/-- Goes on with the new expression, if there is one. What was found in the way before
comes first. -/
def followedBy (before : Rewrite) (next : Node → Except Fault Rewrite) : Except Fault Rewrite :=
  match before.status with
  | .ok result => do
    let after ← next result
    return { after with mismatches := before.mismatches ++ after.mismatches }
  | .mismatch | .unbound => return before

theorem followedBy_ok {before : Rewrite} {result : Node} (h : before.status = .ok result)
    (next : Node → Except Fault Rewrite) :
    before.followedBy next = do
      let after ← next result
      return { after with mismatches := before.mismatches ++ after.mismatches } := by
  rw [followedBy, h]

theorem followedBy_stuck {before : Rewrite} (h : ∀ result, before.status ≠ .ok result)
    (next : Node → Except Fault Rewrite) : before.followedBy next = .ok before := by
  rw [followedBy]
  cases hstatus : before.status with
  | ok result => exact absurd hstatus (h result)
  | mismatch | unbound => rfl

theorem followedBy_pure (before : Rewrite) :
    (before.followedBy fun result => .ok ⟨.ok result, []⟩) = .ok before := by
  obtain ⟨status, mismatches⟩ := before
  cases status <;> simp [followedBy, bind, Except.bind, pure, Except.pure]

theorem followedBy_assoc (before : Rewrite) (next last : Node → Except Fault Rewrite) :
    (before.followedBy next >>= fun middle => middle.followedBy last) =
      before.followedBy fun result => next result >>= fun middle => middle.followedBy last := by
  obtain ⟨status, mismatches⟩ := before
  cases status with
  | mismatch | unbound => rfl
  | ok result =>
    cases hnext : next result with
    | error fault => simp [followedBy, bind, Except.bind, hnext]
    | ok middle =>
      obtain ⟨status, found⟩ := middle
      cases status with
      | mismatch | unbound => simp [followedBy, bind, Except.bind, pure, Except.pure, hnext]
      | ok middle =>
        cases hlast : last middle <;>
          simp [followedBy, bind, Except.bind, pure, Except.pure, hnext, hlast]

variable (symbols : Symbols) (rules : RuleStore) (strict : Bool)

/-- Applies rules to an expression in order. -/
def carry (expr : Node) : List Node → Except Fault Rewrite
  | [] => .ok ⟨.ok expr, []⟩
  | rule :: rest => do
    let before ← byRule symbols rules strict rule expr
    before.followedBy fun result => carry result rest

variable {symbols rules strict}

theorem carry_cons (expr rule : Node) (rest : List Node) :
    carry symbols rules strict expr (rule :: rest) =
      byRule symbols rules strict rule expr >>= fun before =>
        before.followedBy fun result => carry symbols rules strict result rest := rfl

theorem carry_one (expr rule : Node) :
    carry symbols rules strict expr [rule] = byRule symbols rules strict rule expr := by
  rw [carry_cons]
  simp only [carry, followedBy_pure]
  cases byRule symbols rules strict rule expr <;> rfl

/-- What the first rules come to, the others go on with. -/
theorem carry_append (expr : Node) (xs ys : List Node) :
    carry symbols rules strict expr (xs ++ ys) =
      carry symbols rules strict expr xs >>= fun before =>
        before.followedBy fun result => carry symbols rules strict result ys := by
  induction xs generalizing expr with
  | nil =>
    rw [List.nil_append, carry]
    cases hys : carry symbols rules strict expr ys <;>
      simp [followedBy, bind, Except.bind, pure, Except.pure, hys]
  | cons rule rest ih =>
    rw [List.cons_append, carry_cons, carry_cons]
    cases byRule symbols rules strict rule expr with
    | error fault => rfl
    | ok before =>
      simp only [ih]
      exact (followedBy_assoc ..).symm

theorem chain_application (target inner rule : Node) :
    chain symbols rules strict (.application target inner) rule =
      chain symbols rules strict target inner >>= fun before =>
        before.followedBy fun result => byRule symbols rules strict rule result := by
  rw [chain]
  refine bind_congr fun before => ?_
  rw [followedBy]
  cases before.status <;> rfl

/-- **A chain applies its rules in order to its head.** -/
theorem chain_eq_carry (target rule : Node) :
    chain symbols rules strict target rule =
      carry symbols rules strict (links target rule).1 (links target rule).2 := by
  induction target generalizing rule with
  | application target inner ih _ =>
    rw [chain_application, links, ih, carry_append]
    simp only [carry_one]
  | _ => exact (carry_one ..).symm

/-- The expression at the head of what rules have been applied to. -/
def head : Node → Node
  | .application target _ => head target
  | n => n

/-- The rules that have been applied. -/
def applied : Node → List Node
  | .application target rule => applied target ++ [rule]
  | _ => []

theorem links_eq (target rule : Node) :
    links target rule = (head target, applied target ++ [rule]) := by
  induction target generalizing rule with
  | application target inner ih _ =>
    rw [links, ih]
    rfl
  | _ => rfl

theorem head_formula {n : Node} (h : n.IsFormula) : head n = n := by
  cases h <;> rfl

theorem applied_formula {n : Node} (h : n.IsFormula) : applied n = [] := by
  cases h <;> rfl

/-- One rule applied to a formula is one step by this rule. -/
theorem chain_byRule {n : Node} (h : n.IsFormula) (rule : Node) :
    chain symbols rules strict n rule = byRule symbols rules strict rule n := by
  cases h <;> rfl

theorem chain_formula {n : Node} (h : n.IsFormula) (lhs rhs : Node) :
    chain symbols rules strict n (.equivalence lhs rhs) = step strict lhs rhs n :=
  chain_byRule h _

/-- At the head of inline rules stands a formula, and each of them is one of formulas. -/
theorem links_of_isInline {target : Node} (h : target.IsInline) :
    (head target).IsFormula ∧ ∀ r ∈ applied target, r.IsFormulaRule := by
  induction h with
  | formula hn =>
    rw [head_formula hn, applied_formula hn]
    exact ⟨hn, nofun⟩
  | apply _ hl hr ih =>
    refine ⟨ih.1, fun r hr' => ?_⟩
    rcases List.mem_append.1 hr' with hr' | hr'
    · exact ih.2 r hr'
    · rw [List.mem_singleton.1 hr']
      exact ⟨hl, hr⟩

/-- A chain is what comes of the rules before the last one, and then of the last one. -/
theorem chain_eq (target rule : Node) :
    chain symbols rules strict target rule =
      carry symbols rules strict (head target) (applied target) >>= fun before =>
        before.followedBy fun result => byRule symbols rules strict rule result := by
  rw [chain_eq_carry, links_eq, carry_append]
  simp only [carry_one]

/-- What the rules stand for is all that matters. -/
theorem carry_congr {symbols' : Symbols} {expr : Node} {links : List Node}
    (h : ∀ r ∈ links, resolve symbols rules r = resolve symbols' rules r) :
    carry symbols rules strict expr links = carry symbols' rules strict expr links := by
  induction links generalizing expr with
  | nil => rfl
  | cons rule rest ih =>
    have hrest : ∀ result, carry symbols rules strict result rest =
        carry symbols' rules strict result rest :=
      fun result => ih fun r hr => h r (List.mem_cons_of_mem _ hr)
    simp only [carry_cons, byRule, h rule List.mem_cons_self, hrest]

theorem resolve_formulaRule (symbols : Symbols) (rules : RuleStore) {rule : Node}
    (h : rule.IsFormulaRule) : resolve symbols rules rule = .ok rule := by
  cases rule with
  | equivalence lhs rhs => rfl
  | _ => cases h

/-- Inline rules carry a formula to an outcome. -/
theorem carry_over {expr : Node} {links : List Node} (hexpr : expr.IsFormula)
    (hlinks : ∀ r ∈ links, r.IsFormulaRule) :
    ∃ outcome, carry symbols rules strict expr links = .ok outcome ∧ Over expr outcome := by
  induction links generalizing expr with
  | nil =>
    refine ⟨_, rfl, fun ht => ?_, nofun⟩
    cases ht
    exact .refl hexpr
  | cons rule rest ih =>
    have hrule := hlinks rule List.mem_cons_self
    cases rule with
    | equivalence lhs rhs =>
      obtain ⟨before, hstep, hover⟩ := step_over strict hrule.1 hrule.2 hexpr
      have hby : byRule symbols rules strict (.equivalence lhs rhs) expr = .ok before := hstep
      rw [carry_cons, hby]
      cases hstatus : before.status with
      | ok result =>
        have hresult := hover.result hstatus
        obtain ⟨after, hafter, hlast⟩ :=
          ih hresult.formula fun r hr => hlinks r (List.mem_cons_of_mem _ hr)
        refine ⟨{ after with mismatches := before.mismatches ++ after.mismatches }, ?_,
          fun ht => hresult.trans (hlast.result ht), fun m hm => ?_⟩
        · simp only [bind, Except.bind, followedBy, hstatus, hafter, pure, Except.pure]
        · rcases List.mem_append.1 hm with hm | hm
          · exact hover.found m hm
          · exact hresult.trans (hlast.found m hm)
      | mismatch | unbound =>
        exact ⟨before, followedBy_stuck (by simp [hstatus]) _, hover⟩
    | _ => cases hrule

/-! ## The steps of a chain -/

/-- A step by a node is one by the rule that the node stands for. -/
theorem byRule_eq {rule lhs rhs : Node} (h : resolve symbols rules rule = .ok (.equivalence lhs rhs))
    (expr : Node) : byRule symbols rules strict rule expr = step strict lhs rhs expr := by
  rw [byRule, h]
  rfl

theorem byRule_ok {rule expr : Node} {outcome : Rewrite}
    (h : byRule symbols rules strict rule expr = .ok outcome) :
    ∃ lhs rhs, resolve symbols rules rule = .ok (.equivalence lhs rhs) ∧
      step strict lhs rhs expr = .ok outcome := by
  obtain ⟨resolved, hresolve, h⟩ := bind_eq_ok h
  split at h
  · exact ⟨_, _, hresolve, h⟩
  · cases h

/-- What a chain has found in its way is what its steps have found, from the first to the last. -/
theorem carry_mismatches {expr : Node} {applied : List Node} {outcome : Rewrite}
    (h : carry symbols rules strict expr applied = .ok outcome) :
    (stepsFrom symbols rules strict expr applied).flatMap (·.outcome.mismatches) =
      outcome.mismatches := by
  induction applied generalizing expr outcome with
  | nil =>
    cases h
    rfl
  | cons rule rest ih =>
    obtain ⟨before, hbefore, h⟩ := bind_eq_ok h
    obtain ⟨lhs, rhs, hresolve, hstep⟩ := byRule_ok hbefore
    rw [stepsFrom, hresolve]
    simp only [hstep, List.flatMap_cons]
    cases hstatus : before.status with
    | ok result =>
      rw [followedBy_ok hstatus] at h
      obtain ⟨after, hafter, h⟩ := bind_eq_ok h
      cases h
      simp only [ih hafter]
    | mismatch | unbound =>
      rw [followedBy_stuck (by simp [hstatus])] at h
      cases h
      simp

/-- The expressions that steps meet, and what comes of them, are over the atoms of the first. -/
theorem stepsFrom_over {expr : Node} {links : List Node} (hrules : rules.HoldsFormulas)
    (hlinks : ∀ r ∈ links, IsLink symbols r) (hexpr : expr.IsFormula) :
    ∀ s ∈ stepsFrom symbols rules strict expr links, expr.Over s.target ∧ Over expr s.outcome := by
  induction links generalizing expr with
  | nil => exact nofun
  | cons rule rest ih =>
    intro s hs
    rcases resolve_link (hlinks rule List.mem_cons_self) hrules with
      ⟨resolved, hresolve, hformulas⟩ | ⟨name, hresolve⟩
    · cases resolved with
      | equivalence lhs rhs =>
        obtain ⟨outcome, hstep, hover⟩ := step_over strict hformulas.1 hformulas.2 hexpr
        simp only [stepsFrom, hresolve, hstep] at hs
        rcases List.mem_cons.1 hs with rfl | hs
        · exact ⟨.refl hexpr, hover⟩
        · split at hs
          next result hstatus =>
            have hresult := hover.result hstatus
            obtain ⟨htarget, hrest⟩ :=
              ih (fun r hr => hlinks r (List.mem_cons_of_mem _ hr)) hresult.formula s hs
            exact ⟨hresult.trans htarget, fun ht => hresult.trans (hrest.result ht),
              fun m hm => hresult.trans (hrest.found m hm)⟩
          next => cases hs
      | _ => cases hformulas
    · rw [stepsFrom, hresolve] at hs
      cases hs

theorem chain_mismatches {target rule : Node} {outcome : Rewrite}
    (h : chain symbols rules strict target rule = .ok outcome) :
    (steps symbols rules strict target rule).flatMap (·.outcome.mismatches) =
      outcome.mismatches := by
  rw [chain_eq_carry] at h
  exact carry_mismatches h

end Rewrite

end Propositional
