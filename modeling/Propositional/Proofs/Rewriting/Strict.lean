/-
Strict rewriting as a relation between expressions. A rule of formulas takes one expression
to another if these are the same instance of its two sides (`step_iff_takes`). Said so, two
laws are plain. What is put for the atoms of the expression is put for those of the result
(`Takes.subst`), since instances of an instance are instances. And a rule whose sides have
the same atoms can be read backwards (`Takes.reversed`). Both go over from single rules to
chains of rules by induction on the links.
-/
import Propositional.Proofs.Rewriting.Fold
import Propositional.Proofs.Rewriting.Instance

namespace Propositional

/-- The rule with its sides exchanged. -/
def Node.reversed : Node → Node
  | equivalence lhs rhs => equivalence rhs lhs
  | n => n

/-- Equivalences of formulas with the same atoms on both sides. -/
def Node.IsReversibleRule : Node → Prop
  | equivalence lhs rhs => lhs.IsFormula ∧ rhs.IsFormula ∧ ∀ i, i ∈ lhs.atoms ↔ i ∈ rhs.atoms
  | _ => False

theorem Node.IsReversibleRule.isFormulaRule {rule : Node} (h : rule.IsReversibleRule) :
    rule.IsFormulaRule := by
  cases rule with
  | equivalence lhs rhs => exact ⟨h.1, h.2.1⟩
  | _ => cases h

theorem Node.IsReversibleRule.reversed {rule : Node} (h : rule.IsReversibleRule) :
    rule.reversed.IsReversibleRule := by
  cases rule with
  | equivalence lhs rhs => exact ⟨h.2.1, h.1, fun i => (h.2.2 i).symm⟩
  | _ => cases h

namespace Rewrite

/-- The rule takes one expression to the other: they are the same instance of its sides, and
the right one has no atoms of its own. -/
def Takes (lhs rhs expr result : Node) : Prop :=
  (∀ i ∈ rhs.atoms, i ∈ lhs.atoms) ∧ ∃ σ, lhs.subst σ = expr ∧ rhs.subst σ = result

section Steps

variable {lhs rhs expr result : Node}

/-- A strict step succeeds exactly where the rule takes the expression somewhere, and then
has met no mismatch. -/
theorem step_iff_takes (hlhs : lhs.IsFormula) (hrhs : rhs.IsFormula) (found : List Mismatch) :
    step true lhs rhs expr = .ok ⟨.ok result, found⟩ ↔
      found = [] ∧ Takes lhs rhs expr result := by
  constructor
  · intro h
    by_cases hinstance : ∃ σ, lhs.subst σ = expr
    · obtain ⟨σ, rfl⟩ := hinstance
      rw [step_subst hlhs hrhs] at h
      by_cases hatoms : ∀ i ∈ rhs.atoms, i ∈ lhs.atoms
      · rw [if_pos hatoms] at h
        cases h
        exact ⟨rfl, hatoms, σ, rfl, rfl⟩
      · rw [if_neg hatoms] at h
        cases h
    · obtain ⟨mismatches, hstep⟩ := step_of_not_subst hlhs hrhs hinstance
      rw [hstep] at h
      cases h
  · rintro ⟨rfl, hatoms, σ, rfl, rfl⟩
    rw [step_subst hlhs hrhs, if_pos hatoms]

theorem Takes.subst (h : Takes lhs rhs expr result) (τ : Int → Node) :
    Takes lhs rhs (expr.subst τ) (result.subst τ) := by
  obtain ⟨hatoms, σ, rfl, rfl⟩ := h
  refine ⟨hatoms, fun i => (σ i).subst τ, ?_, ?_⟩
  · rw [Node.subst_subst]
  · rw [Node.subst_subst]

theorem Takes.reversed (h : Takes lhs rhs expr result) (hkept : ∀ i ∈ lhs.atoms, i ∈ rhs.atoms) :
    Takes rhs lhs result expr := by
  obtain ⟨-, σ, hexpr, hresult⟩ := h
  exact ⟨hkept, σ, hresult, hexpr⟩

end Steps

/-! ## Chains -/

variable {symbols : Symbols} {rules : RuleStore} {expr middle result rule : Node}
  {links : List Node} {found : List Mismatch}

theorem applies_iff_takes {lhs rhs : Node} (h : (Node.equivalence lhs rhs).IsFormulaRule) :
    Applies symbols rules true (.equivalence lhs rhs) expr ⟨.ok result, found⟩ ↔
      found = [] ∧ Takes lhs rhs expr result := by
  rw [← step_iff_takes h.1 h.2]
  constructor
  · rintro ⟨_, _, hresolve, hstep⟩
    cases hresolve
    exact hstep
  · intro hstep
    exact ⟨lhs, rhs, rfl, hstep⟩

theorem carries_of_carry {strict : Bool}
    (h : carry symbols rules strict expr links = .ok ⟨.ok result, found⟩) :
    Carries symbols rules strict expr links result found := by
  induction links generalizing expr found with
  | nil =>
    cases h
    exact .nil
  | cons rule rest ih =>
    obtain ⟨before, hbefore, h⟩ := bind_eq_ok h
    have happlies : Applies symbols rules strict rule expr before := byRule_ok hbefore
    obtain ⟨status, met⟩ := before
    cases status with
    | ok middle =>
      rw [followedBy_ok rfl] at h
      obtain ⟨⟨last, later⟩, hafter, h⟩ := bind_eq_ok h
      cases h
      exact .cons happlies (ih hafter)
    | mismatch | unbound =>
      rw [followedBy_stuck (by simp)] at h
      cases h

theorem Carries.append {strict : Bool} {more : List Node} {later : List Mismatch}
    (h : Carries symbols rules strict expr links middle found)
    (hmore : Carries symbols rules strict middle more result later) :
    Carries symbols rules strict expr (links ++ more) result (found ++ later) := by
  induction h with
  | nil => exact hmore
  | cons happlies _ ih =>
    rw [List.cons_append, List.append_assoc]
    exact .cons happlies (ih hmore)

theorem Carries.subst (h : Carries symbols rules true expr links result found)
    (hlinks : ∀ r ∈ links, r.IsFormulaRule) (τ : Int → Node) :
    Carries symbols rules true (expr.subst τ) links (result.subst τ) [] := by
  induction h with
  | nil => exact .nil
  | @cons expr rule middle result rest _ _ happlies _ ih =>
    have hrule := hlinks rule List.mem_cons_self
    have hrest := ih fun r hr => hlinks r (List.mem_cons_of_mem _ hr)
    cases rule with
    | equivalence lhs rhs =>
      have htakes := ((applies_iff_takes hrule).1 happlies).2.subst τ
      exact .cons ((applies_iff_takes hrule).2 ⟨rfl, htakes⟩) hrest
    | _ => cases hrule

theorem Carries.undone (h : Carries symbols rules true expr links result found)
    (hlinks : ∀ r ∈ links, r.IsReversibleRule) :
    found = [] ∧ Carries symbols rules true result (links.map Node.reversed).reverse expr [] := by
  induction h with
  | nil => exact ⟨rfl, .nil⟩
  | @cons expr rule middle result rest _ _ happlies _ ih =>
    have hrule := hlinks rule List.mem_cons_self
    obtain ⟨rfl, hback⟩ := ih fun r hr => hlinks r (List.mem_cons_of_mem _ hr)
    cases rule with
    | equivalence lhs rhs =>
      obtain ⟨rfl, htakes⟩ := (applies_iff_takes hrule.isFormulaRule).1 happlies
      have hlast : Applies symbols rules true (.equivalence rhs lhs) middle ⟨.ok expr, []⟩ :=
        (applies_iff_takes hrule.reversed.isFormulaRule).2
          ⟨rfl, htakes.reversed fun i hi => (hrule.2.2 i).1 hi⟩
      rw [List.map_cons, List.reverse_cons]
      exact ⟨rfl, hback.append (.cons hlast .nil)⟩
    | _ => cases hrule

theorem Carries.carry_undone (h : Carries symbols rules true expr links result found)
    (hlinks : ∀ r ∈ links, r.IsReversibleRule) :
    carry symbols rules true expr (links ++ (links.map Node.reversed).reverse) =
      .ok ⟨.ok expr, []⟩ := by
  obtain ⟨rfl, hundone⟩ := h.undone hlinks
  exact carry_of_foldsTo (.ok (h.append hundone))

theorem chain_iff_carries {strict : Bool} (hexpr : expr.IsFormula) (before : List Node)
    (last : Node) :
    chain symbols rules strict (expr.applying before) last = .ok ⟨.ok result, found⟩ ↔
      Carries symbols rules strict expr (before ++ [last]) result found := by
  rw [chain_applying hexpr]
  exact ⟨carries_of_carry, fun h => carry_of_foldsTo (.ok h)⟩

/-- **Strict rewriting is stable under substitution.** If a rule of formulas takes a formula
to `t` in a strict step, it takes the formula with formulas put for its atoms to `t` with the
same put for them, and meets no mismatch. So does a strict chain of inline rules. -/
theorem strict_rewriting_commutes_with_subst {e : Node} (he : e.IsFormula) {τ : Int → Node}
    (hτ : ∀ i ∈ e.atoms, (τ i).IsFormula) :
    (∀ lhs rhs, lhs.IsFormula → rhs.IsFormula → ∀ outcome t,
      step true lhs rhs e = .ok outcome → outcome.status = .ok t →
        step true lhs rhs (e.subst τ) = .ok ⟨.ok (t.subst τ), []⟩) ∧
    ∀ symbols rules before last, (∀ r ∈ before ++ [last], r.IsFormulaRule) → ∀ outcome t,
      chain symbols rules true (e.applying before) last = .ok outcome → outcome.status = .ok t →
        chain symbols rules true ((e.subst τ).applying before) last =
          .ok ⟨.ok (t.subst τ), []⟩ := by
  constructor
  · rintro lhs rhs hlhs hrhs ⟨_, found⟩ t hstep rfl
    obtain ⟨-, htakes⟩ := (step_iff_takes hlhs hrhs found).1 hstep
    exact (step_iff_takes hlhs hrhs []).2 ⟨rfl, htakes.subst τ⟩
  · rintro symbols rules before last hlinks ⟨_, found⟩ t hchain rfl
    have hcarries := (chain_iff_carries he before last).1 hchain
    exact (chain_iff_carries (he.subst hτ) before last).2 (hcarries.subst hlinks τ)

/-- A rule with a repeated atom, and another one after it, where a disjunction is put for the
atom of the expression. -/
theorem strict_chain_commutes_with_subst :
    let e := Node.binary (.atom 2) .conj (.atom 2)
    let τ := fun i : Int => Node.group (.binary (.atom i) .disj (.neg (.atom 7)))
    let idempotence := Node.equivalence (.binary (.atom 0) .conj (.atom 0)) (.atom 0)
    let doubling := Node.equivalence (.atom 4) (.neg (.neg (.atom 4)))
    chain .empty .empty true (e.applying [idempotence]) doubling =
        .ok ⟨.ok (.neg (.neg (.atom 2))), []⟩ ∧
      chain .empty .empty true ((e.subst τ).applying [idempotence]) doubling =
        .ok ⟨.ok (.neg (.neg (.group (.binary (.atom 2) .disj (.neg (.atom 7)))))), []⟩ := by
  intro e τ idempotence doubling
  have he : e.IsFormula := by decide
  have hτ : ∀ i ∈ e.atoms, (τ i).IsFormula :=
    fun i _ => .group (.binary .disj (.atom i) (.neg (.atom 7)))
  have hlinks : ∀ r ∈ [idempotence] ++ [doubling], r.IsFormulaRule := by
    intro r hr
    rcases List.mem_cons.1 hr with rfl | hr
    · exact ⟨by decide, by decide⟩
    · rw [List.mem_singleton.1 hr]
      exact ⟨by decide, by decide⟩
  have hchain : chain .empty .empty true (e.applying [idempotence]) doubling =
      .ok ⟨.ok (.neg (.neg (.atom 2))), []⟩ := rfl
  exact ⟨hchain, (strict_rewriting_commutes_with_subst he hτ).2 _ _ _ _ hlinks _ _ hchain rfl⟩

/-- **A rule and then its reverse restore the expression.** If a strict step by a rule of
formulas, whose sides have the same atoms, takes a formula anywhere, the strict chain of this
rule and the reversed one brings the formula back and meets no mismatch. So does a whole
strict chain of such rules, followed by the reversed rules from the last one to the first. -/
theorem reversed_rules_restore {f : Node} (hf : f.IsFormula) (symbols : Symbols)
    (rules : RuleStore) :
    (∀ lhs rhs, lhs.IsFormula → rhs.IsFormula → (∀ i, i ∈ lhs.atoms ↔ i ∈ rhs.atoms) →
      ∀ outcome t, step true lhs rhs f = .ok outcome → outcome.status = .ok t →
        chain symbols rules true (.application f (.equivalence lhs rhs)) (.equivalence rhs lhs) =
          .ok ⟨.ok f, []⟩) ∧
    ∀ before last, (∀ r ∈ before ++ [last], r.IsReversibleRule) → ∀ outcome t,
      chain symbols rules true (f.applying before) last = .ok outcome → outcome.status = .ok t →
        ∃ target outer,
          f.applying (before ++ [last] ++ ((before ++ [last]).map Node.reversed).reverse) =
            .application target outer ∧
          chain symbols rules true target outer = .ok ⟨.ok f, []⟩ := by
  constructor
  · rintro lhs rhs hlhs hrhs hatoms ⟨_, found⟩ t hstep rfl
    have hcarries : Carries symbols rules true f [.equivalence lhs rhs] t found :=
      (chain_iff_carries hf [] _).1 ((chain_formula hf lhs rhs).trans hstep)
    have hlinks : ∀ r ∈ [Node.equivalence lhs rhs], r.IsReversibleRule := by
      intro r hr
      rw [List.mem_singleton.1 hr]
      exact ⟨hlhs, hrhs, hatoms⟩
    exact (chain_applying hf [_] _).trans (hcarries.carry_undone hlinks)
  · rintro before last hlinks ⟨_, found⟩ t hchain rfl
    have hcarry := ((chain_iff_carries hf before last).1 hchain).carry_undone hlinks
    have hne : before ++ [last] ++ ((before ++ [last]).map Node.reversed).reverse ≠ [] := by simp
    rw [← List.dropLast_concat_getLast hne] at hcarry ⊢
    refine ⟨_, _, Node.applying_append .., ?_⟩
    rw [chain_applying hf, hcarry]

/-- The distribution of a conjunction over a disjunction, which repeats an atom, and back. -/
theorem reversed_rules_restore_factored :
    let factored := Node.binary (.atom 0) .conj (.group (.binary (.atom 1) .disj (.atom 2)))
    let spread := Node.binary (.group (.binary (.atom 0) .conj (.atom 1))) .disj
      (.group (.binary (.atom 0) .conj (.atom 2)))
    let f := Node.binary (.neg (.atom 5)) .conj
      (.group (.binary (.binary (.atom 5) .cond (.atom 6)) .disj (.neg (.atom 5))))
    (∃ t, step true factored spread f = .ok ⟨.ok t, []⟩ ∧ t ≠ f) ∧
      chain .empty .empty true (.application f (.equivalence factored spread))
        (.equivalence spread factored) = .ok ⟨.ok f, []⟩ := by
  intro factored spread f
  have hf : f.IsFormula := by decide
  have hatoms : ∀ i, i ∈ factored.atoms ↔ i ∈ spread.atoms := by
    intro i
    simp [factored, spread, Node.atoms]
    omega
  have hstep : step true factored spread f = .ok ⟨.ok (.binary
      (.group (.binary (.neg (.atom 5)) .conj (.binary (.atom 5) .cond (.atom 6)))) .disj
      (.group (.binary (.neg (.atom 5)) .conj (.neg (.atom 5))))), []⟩ := rfl
  refine ⟨⟨_, hstep, by decide⟩, ?_⟩
  exact (reversed_rules_restore hf .empty .empty).1 factored spread (by decide) (by decide) hatoms
    _ _ hstep rfl

end Rewrite

end Propositional
