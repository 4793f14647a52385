/-
What rewriting a formula can bring about. Whatever the rules, as long as their
sides are formulas, the expressions that a match binds or finds in its way are
formulas over the atoms of the expression matched (`find_over`); so are results
of a step and of a chain (`chain_over`). A chain has no other fault than a name
under which no rule is stored.
-/
import Propositional.Proofs.Rewriting.Outcome

namespace Propositional

/-- A formula whose atoms are atoms of an expression. -/
structure Node.Over (expr n : Node) : Prop where
  formula : n.IsFormula
  atoms : ∀ i ∈ n.atoms, i ∈ expr.atoms

theorem Node.Over.refl {n : Node} (h : n.IsFormula) : n.Over n := ⟨h, fun _ hi => hi⟩

theorem Node.Over.trans {a b c : Node} (h₁ : a.Over b) (h₂ : b.Over c) : a.Over c :=
  ⟨h₂.formula, fun i hi => h₁.atoms i (h₂.atoms i hi)⟩

/-- What is put for atoms of a formula decides what comes of it. -/
theorem Node.Over.subst {expr n : Node} {σ : Int → Node} (hn : n.IsFormula)
    (h : ∀ i ∈ n.atoms, expr.Over (σ i)) : expr.Over (n.subst σ) := by
  refine ⟨hn.subst fun i hi => (h i hi).formula, fun i hi => ?_⟩
  obtain ⟨j, hj, hi⟩ := (mem_atoms_subst hn).1 hi
  exact (h j hj).atoms i hi

/-- The part of the expression at which a walk ends. -/
def Meeting.found? : Meeting → Option Node
  | site _ found => some found
  | clash mismatch => some mismatch.found
  | improper _ => none

namespace Match

/-- A walk through a formula ends at its parts. -/
theorem meetingsFrom_over {first second : β → β} {here : β} {lhs expr : Node}
    (hexpr : expr.IsFormula) {p : β × Meeting} (hp : p ∈ meetingsFrom first second here lhs expr)
    {n : Node} (hn : p.2.found? = some n) : expr.Over n := by
  fun_induction meetingsFrom first second here lhs expr with
  | case1 | case4 | case5 | case7 | case8 =>
    cases List.mem_singleton.1 hp
    cases hn
    exact .refl hexpr
  | case2 here q e ih =>
    cases hexpr with
    | neg he => exact ⟨(ih he hp).formula, (ih he hp).atoms⟩
  | case3 here q e ih =>
    cases hexpr with
    | group he => exact ⟨(ih he hp).formula, (ih he hp).atoms⟩
  | case6 here _ _ _ l r ihl ihr =>
    cases hexpr with
    | binary _ hl hr =>
      rcases List.mem_append.1 hp with hp | hp
      · have h := ihl hl hp
        exact ⟨h.formula, fun i hi => List.mem_append_left _ (h.atoms i hi)⟩
      · have h := ihr hr hp
        exact ⟨h.formula, fun i hi => List.mem_append_right _ (h.atoms i hi)⟩
  | case9 =>
    cases List.mem_singleton.1 hp
    cases hn

/-- Everything bound and everything found in the way is over the atoms of an expression. -/
structure Over (expr : Node) (m : Match) : Prop where
  bound : ∀ {i n}, m.bindings.get? i = some n → expr.Over n
  found : ∀ mismatch ∈ m.mismatches, expr.Over mismatch.found

theorem over_empty (expr : Node) : Over expr empty := by
  refine ⟨fun h => ?_, nofun⟩
  rw [empty, OrderedMap.get?_empty] at h
  cases h

theorem Over.record {expr : Node} {m : Match} (h : Over expr m) {mismatch : Mismatch}
    (hfound : expr.Over mismatch.found) : Over expr (m.record mismatch) := by
  refine ⟨h.bound, fun x hx => ?_⟩
  rcases List.mem_append.1 hx with hx | hx
  · exact h.found x hx
  · rwa [List.mem_singleton.1 hx]

theorem meet_over {strict : Bool} {expr : Node} {m m' : Match} {e : Meeting} (h : Over expr m)
    (he : ∀ n, e.found? = some n → expr.Over n) (hmeet : m.meet strict e = .ok m') :
    Over expr m' := by
  cases e with
  | site i found =>
    have hfound := he found rfl
    rw [meet] at hmeet
    split at hmeet
    · cases hmeet
      refine ⟨fun {j n} hn => ?_, h.found⟩
      by_cases hj : j = i
      · subst hj
        rw [OrderedMap.get?_insert_self] at hn
        cases hn
        exact hfound
      · rw [OrderedMap.get?_insert_of_ne _ hj] at hn
        exact h.bound hn
    · split at hmeet <;> cases hmeet
      · exact h.record hfound
      · exact h
  | clash mismatch =>
    cases hmeet
    exact h.record (he _ rfl)
  | improper => cases hmeet

theorem follow_over {strict : Bool} {expr : Node} {m m' : Match} {ends : List Meeting}
    (h : Over expr m) (hends : ∀ e ∈ ends, ∀ n, e.found? = some n → expr.Over n)
    (hfollow : follow strict m ends = .ok m') : Over expr m' := by
  induction ends generalizing m with
  | nil =>
    cases hfollow
    exact h
  | cons e ends ih =>
    rw [follow, List.foldlM_cons] at hfollow
    obtain ⟨m₁, hmeet, hrest⟩ := bind_eq_ok hfollow
    have h₁ := meet_over h (hends e List.mem_cons_self) hmeet
    exact ih h₁ (fun e' he' => hends e' (List.mem_cons_of_mem _ he')) hrest

theorem find_over {strict : Bool} {lhs expr : Node} {m : Match} (hexpr : expr.IsFormula)
    (h : find strict lhs expr = .ok m) : Over expr m := by
  refine follow_over (over_empty expr) (fun e he n hn => ?_) h
  obtain ⟨p, hp, rfl⟩ := List.mem_map.1 he
  exact meetingsFrom_over hexpr hp hn

end Match

/-- All rules that are stored are equivalences of formulas. -/
def RuleStore.HoldsFormulas (rules : RuleStore) : Prop :=
  ∀ name rule, rules.get? name = some rule → rule.IsFormulaRule

theorem RuleStore.holdsFormulas_empty : HoldsFormulas .empty := by
  intro name rule h
  rw [OrderedMap.get?_empty] at h
  cases h

theorem RuleStore.HoldsFormulas.insert {rules : RuleStore} (h : rules.HoldsFormulas)
    {rule : Node} (hrule : rule.IsFormulaRule) (name : String) :
    HoldsFormulas (OrderedMap.insert rules name rule) := by
  intro name' rule' hget
  by_cases hname : name' = name
  · subst hname
    rw [OrderedMap.get?_insert_self] at hget
    cases hget
    exact hrule
  · rw [OrderedMap.get?_insert_of_ne _ hname] at hget
    exact h name' rule' hget

namespace Rewrite

/-- The result, and everything found in the way, is over the atoms of an expression. -/
structure Over (expr : Node) (outcome : Rewrite) : Prop where
  result : ∀ {t}, outcome.status = .ok t → expr.Over t
  found : ∀ mismatch ∈ outcome.mismatches, expr.Over mismatch.found

/-- A step by a rule of formulas. -/
theorem step_over (strict : Bool) {lhs rhs expr : Node} (hlhs : lhs.IsFormula)
    (hrhs : rhs.IsFormula) (hexpr : expr.IsFormula) :
    ∃ outcome, step strict lhs rhs expr = .ok outcome ∧ Over expr outcome := by
  obtain ⟨found, hfind, hstep⟩ := step_eq strict hlhs hrhs expr
  have hover := Match.find_over hexpr hfind
  refine ⟨_, hstep, fun {t} ht => ?_, hover.found⟩
  simp only [statusAfter] at ht
  split at ht
  · cases ht
  · split at ht
    · next hbound =>
      cases ht
      refine .subst hrhs fun i hi => ?_
      obtain ⟨n, hn⟩ := Node.isBound_iff.1 hbound i hi
      rw [Bindings.toSubst_of_get? hn]
      exact hover.bound hn
    · cases ht

/-- What may stand for a rule in a chain: an equivalence of formulas, or a name. -/
def IsLink (symbols : Symbols) (rule : Node) : Prop :=
  rule.IsFormulaRule ∨ ∃ i name, rule = .ruleName i ∧ symbols.name? i = some name

/-- An outcome over the atoms of an expression, or a name without a rule. -/
def Ends (expr : Node) (answer : Except Fault Rewrite) : Prop :=
  (∃ outcome, answer = .ok outcome ∧ Over expr outcome) ∨
    ∃ name, answer = .error (.undefinedRule name)

variable {symbols : Symbols} {rules : RuleStore}

/-- A name stands for what is stored under it. -/
theorem resolve_ruleName {i : Int} {name : String} (h : symbols.name? i = some name) :
    resolve symbols rules (.ruleName i) = rules.find name := by
  rw [resolve, Symbols.nameOf, h]
  rfl

theorem resolve_link {rule : Node} (hrule : IsLink symbols rule) (hrules : rules.HoldsFormulas) :
    (∃ resolved, resolve symbols rules rule = .ok resolved ∧ resolved.IsFormulaRule) ∨
      ∃ name, resolve symbols rules rule = .error (.undefinedRule name) := by
  rcases hrule with hrule | ⟨i, name, rfl, hname⟩
  · cases rule with
    | equivalence l r => exact .inl ⟨_, rfl, hrule⟩
    | _ => cases hrule
  · rw [resolve_ruleName hname, RuleStore.find]
    cases hget : rules.get? name with
    | some rule => exact .inl ⟨rule, rfl, hrules name rule hget⟩
    | none => exact .inr ⟨name, rfl⟩

theorem byRule_over (strict : Bool) {rule expr : Node} (hrule : IsLink symbols rule)
    (hrules : rules.HoldsFormulas) (hexpr : expr.IsFormula) :
    Ends expr (byRule symbols rules strict rule expr) := by
  rcases resolve_link hrule hrules with ⟨resolved, hresolve, hformulas⟩ | ⟨name, hresolve⟩
  · cases resolved with
    | equivalence lhs rhs =>
      obtain ⟨outcome, hstep, hover⟩ := step_over strict hformulas.1 hformulas.2 hexpr
      refine .inl ⟨outcome, ?_, hover⟩
      rw [byRule, hresolve]
      exact hstep
    | _ => cases hformulas
  · refine .inr ⟨name, ?_⟩
    rw [byRule, hresolve]
    rfl

/-- **Rewriting stays within the atoms of the formula at the head of a chain**, or
ends at a name without a rule. By induction on the links, from the last one on. -/
theorem chain_over (strict : Bool) {target rule : Node} (hrules : rules.HoldsFormulas)
    (hlinks : ∀ r ∈ (links target rule).2, IsLink symbols r)
    (hhead : (links target rule).1.IsFormula) :
    Ends (links target rule).1 (chain symbols rules strict target rule) := by
  induction target generalizing rule with
  | application t inner iht _ =>
    have hlast : IsLink symbols rule :=
      hlinks rule (List.mem_append_right _ (List.mem_singleton_self _))
    have hbefore : Ends (links t inner).1 (chain symbols rules strict t inner) :=
      iht (fun r hr => hlinks r (List.mem_append_left _ hr)) hhead
    rcases hbefore with ⟨before, hchain, hover⟩ | ⟨name, hchain⟩
    · cases hstatus : before.status with
      | ok middle =>
        have hmiddle := hover.result hstatus
        rcases byRule_over strict hlast hrules hmiddle.formula with
          ⟨after, hstep, hafter⟩ | ⟨name, hstep⟩
        · refine .inl ⟨{ after with mismatches := before.mismatches ++ after.mismatches }, ?_,
            fun ht => hmiddle.trans (hafter.result ht), fun m hm => ?_⟩
          · simp only [chain, hchain, bind, Except.bind, hstatus, hstep, pure, Except.pure]
          · rcases List.mem_append.1 hm with hm | hm
            · exact hover.found m hm
            · exact hmiddle.trans (hafter.found m hm)
        · refine .inr ⟨name, ?_⟩
          simp only [chain, hchain, bind, Except.bind, hstatus, hstep]
      | mismatch | unbound =>
        refine .inl ⟨before, ?_, hover⟩
        simp only [chain, hchain, bind, Except.bind, hstatus, pure, Except.pure]
    · refine .inr ⟨name, ?_⟩
      simp only [chain, hchain, bind, Except.bind]
  | _ => exact byRule_over strict (hlinks rule (List.mem_singleton_self _)) hrules hhead

end Rewrite

end Propositional
