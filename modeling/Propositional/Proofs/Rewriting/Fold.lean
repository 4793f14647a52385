/-
A chain of rewrites as a fold. Rules that all apply carry an expression through (`Carries`);
the chain ends with the result of the last one, at the first rule that does not apply, or
at the first name without a rule (`FoldsTo`). What stands behind that place is not
looked at. For rules of formulas a chain has no other answer (`chain_iff_foldsTo`).
-/
import Propositional.Proofs.Rewriting.Links

namespace Propositional

/-- An expression with rules applied to it, the first one innermost. -/
def Node.applying (expr : Node) (links : List Node) : Node := links.foldl .application expr

theorem Node.applying_append (expr : Node) (links : List Node) (last : Node) :
    expr.applying (links ++ [last]) = .application (expr.applying links) last := by
  rw [applying, List.foldl_append]
  rfl

namespace Rewrite

variable {symbols : Symbols} {rules : RuleStore} {strict : Bool}

theorem links_applying (expr : Node) (links : List Node) :
    head (expr.applying links) = head expr ∧
      applied (expr.applying links) = applied expr ++ links := by
  induction links generalizing expr with
  | nil => exact ⟨rfl, (List.append_nil _).symm⟩
  | cons rule rest ih =>
    obtain ⟨hhead, happlied⟩ := ih (.application expr rule)
    refine ⟨hhead, happlied.trans ?_⟩
    rw [applied, List.append_assoc, List.singleton_append]

/-- The chain that is written down as rules applied to a formula. -/
theorem chain_applying {expr : Node} (h : expr.IsFormula) (links : List Node) (last : Node) :
    chain symbols rules strict (expr.applying links) last =
      carry symbols rules strict expr (links ++ [last]) := by
  obtain ⟨hhead, happlied⟩ := links_applying expr links
  rw [chain_eq_carry, links_eq, hhead, happlied, head_formula h, applied_formula h,
    List.nil_append]

variable (symbols rules strict)

/-- The rule that a node stands for takes an expression to an outcome in one step. -/
def Applies (rule expr : Node) (outcome : Rewrite) : Prop :=
  ∃ lhs rhs, resolve symbols rules rule = .ok (.equivalence lhs rhs) ∧
    step strict lhs rhs expr = .ok outcome

/-- Each of the rules applies to what the ones before it have made of the expression. The
mismatches met on the way are listed from the first step to the last. -/
inductive Carries : Node → List Node → Node → List Mismatch → Prop
  | nil {expr : Node} : Carries expr [] expr []
  | cons {expr rule middle result : Node} {rest : List Node} {found later : List Mismatch} :
      Applies symbols rules strict rule expr ⟨.ok middle, found⟩ →
      Carries middle rest result later → Carries expr (rule :: rest) result (found ++ later)

/-- The answer of the single steps, carried out from the first one up to the first that fails. -/
inductive FoldsTo (expr : Node) (links : List Node) : Except Fault Rewrite → Prop
  /-- All rules apply. -/
  | ok {result : Node} {found : List Mismatch} :
      Carries symbols rules strict expr links result found →
      FoldsTo expr links (.ok ⟨.ok result, found⟩)
  /-- A rule does not apply to what the ones before it have made. -/
  | stuck {before after : List Node} {rule middle : Node} {found : List Mismatch}
      {outcome : Rewrite} :
      links = before ++ rule :: after →
      Carries symbols rules strict expr before middle found →
      Applies symbols rules strict rule middle outcome →
      (∀ result, outcome.status ≠ .ok result) →
      FoldsTo expr links (.ok ⟨outcome.status, found ++ outcome.mismatches⟩)
  /-- A name is reached that has no rule. -/
  | undefined {before after : List Node} {middle : Node} {found : List Mismatch} {i : Int}
      {name : String} :
      links = before ++ .ruleName i :: after →
      Carries symbols rules strict expr before middle found →
      symbols.name? i = some name → rules.get? name = none →
      FoldsTo expr links (.error (.undefinedRule name))

variable {symbols rules strict} {expr rule middle : Node} {links : List Node}

theorem Applies.byRule {outcome : Rewrite} (h : Applies symbols rules strict rule expr outcome) :
    byRule symbols rules strict rule expr = .ok outcome := by
  obtain ⟨lhs, rhs, hresolve, hstep⟩ := h
  rw [byRule_eq hresolve, hstep]

/-- Mismatches from before come first. -/
def prefixed (found : List Mismatch) (answer : Except Fault Rewrite) : Except Fault Rewrite :=
  answer.map fun outcome => { outcome with mismatches := found ++ outcome.mismatches }

theorem prefixed_nil (answer : Except Fault Rewrite) : prefixed [] answer = answer := by
  cases answer <;> rfl

theorem prefixed_append (xs ys : List Mismatch) (answer : Except Fault Rewrite) :
    prefixed (xs ++ ys) answer = prefixed xs (prefixed ys answer) := by
  cases answer with
  | error fault => rfl
  | ok outcome => simp [prefixed, Except.map]

theorem Applies.carry_cons {found : List Mismatch}
    (h : Applies symbols rules strict rule expr ⟨.ok middle, found⟩) (rest : List Node) :
    carry symbols rules strict expr (rule :: rest) =
      prefixed found (carry symbols rules strict middle rest) := by
  rw [Rewrite.carry_cons, h.byRule]
  cases hrest : carry symbols rules strict middle rest <;>
    simp [followedBy, prefixed, bind, Except.bind, pure, Except.pure, Except.map, hrest]

theorem Carries.carry_append {found : List Mismatch}
    (h : Carries symbols rules strict expr links middle found) (after : List Node) :
    carry symbols rules strict expr (links ++ after) =
      prefixed found (carry symbols rules strict middle after) := by
  induction h with
  | nil => exact (prefixed_nil _).symm
  | cons happlies _ ih =>
    rw [List.cons_append, happlies.carry_cons, ih, prefixed_append]

theorem Applies.carry_stuck {outcome : Rewrite}
    (h : Applies symbols rules strict rule expr outcome)
    (hstuck : ∀ result, outcome.status ≠ .ok result) (rest : List Node) :
    carry symbols rules strict expr (rule :: rest) = .ok outcome := by
  rw [Rewrite.carry_cons, h.byRule]
  exact followedBy_stuck hstuck _

theorem carry_undefined {i : Int} {name : String} (hname : symbols.name? i = some name)
    (hget : rules.get? name = none) (expr : Node) (rest : List Node) :
    carry symbols rules strict expr (.ruleName i :: rest) = .error (.undefinedRule name) := by
  rw [carry_cons, byRule, resolve_ruleName hname, RuleStore.find, hget]
  rfl

theorem resolve_undefined {name : String}
    (h : resolve symbols rules rule = .error (.undefinedRule name)) :
    ∃ i, rule = .ruleName i ∧ symbols.name? i = some name ∧ rules.get? name = none := by
  cases rule with
  | ruleName i =>
    cases hname : symbols.name? i with
    | none =>
      rw [resolve, Symbols.nameOf, hname] at h
      cases h
    | some name' =>
      rw [resolve_ruleName hname, RuleStore.find] at h
      cases hget : rules.get? name' with
      | none =>
        rw [hget] at h
        cases h
        exact ⟨i, rfl, hname, hget⟩
      | some stored =>
        rw [hget] at h
        cases h
  | _ => cases h

/-! ## The fold -/

theorem carry_of_foldsTo {answer : Except Fault Rewrite}
    (h : FoldsTo symbols rules strict expr links answer) :
    carry symbols rules strict expr links = answer := by
  cases h with
  | ok hcarries =>
    have hall := hcarries.carry_append []
    rw [List.append_nil] at hall
    rw [hall, carry, prefixed, Except.map, List.append_nil]
  | stuck hlinks hcarries happlies hstuck =>
    rw [hlinks, hcarries.carry_append, happlies.carry_stuck hstuck]
    rfl
  | undefined hlinks hcarries hname hget =>
    rw [hlinks, hcarries.carry_append, carry_undefined hname hget]
    rfl

theorem FoldsTo.cons {answer : Except Fault Rewrite} {found : List Mismatch}
    (hrule : Applies symbols rules strict rule expr ⟨.ok middle, found⟩)
    (h : FoldsTo symbols rules strict middle links answer) :
    FoldsTo symbols rules strict expr (rule :: links) (prefixed found answer) := by
  cases h with
  | ok hcarries => exact .ok (.cons hrule hcarries)
  | stuck hlinks hcarries happlies hstuck =>
    rw [prefixed, Except.map, ← List.append_assoc]
    exact .stuck (congrArg (rule :: ·) hlinks) (.cons hrule hcarries) happlies hstuck
  | undefined hlinks hcarries hname hget =>
    exact .undefined (congrArg (rule :: ·) hlinks) (.cons hrule hcarries) hname hget

/-- Rules of formulas take a formula to what the single steps come to. By induction on the
rules; a step that succeeds leaves a formula for the others. -/
theorem foldsTo_carry (hrules : rules.HoldsFormulas) (hlinks : ∀ r ∈ links, IsLink symbols r)
    (hexpr : expr.IsFormula) :
    FoldsTo symbols rules strict expr links (carry symbols rules strict expr links) := by
  induction links generalizing expr with
  | nil => exact .ok .nil
  | cons rule rest ih =>
    rcases resolve_link (hlinks rule List.mem_cons_self) hrules with
      ⟨resolved, hresolve, hformulas⟩ | ⟨name, hresolve⟩
    · cases resolved with
      | equivalence lhs rhs =>
        obtain ⟨outcome, hstep, hover⟩ := step_over strict hformulas.1 hformulas.2 hexpr
        have happlies : Applies symbols rules strict rule expr outcome := ⟨lhs, rhs, hresolve, hstep⟩
        by_cases hok : ∃ middle, outcome.status = .ok middle
        · obtain ⟨middle, hstatus⟩ := hok
          obtain ⟨status, found⟩ := outcome
          cases hstatus
          rw [happlies.carry_cons]
          exact .cons happlies (ih (fun r hr => hlinks r (List.mem_cons_of_mem _ hr))
            (hover.result rfl).formula)
        · have hstuck := not_exists.1 hok
          rw [happlies.carry_stuck hstuck]
          have hhere : rule :: rest = [] ++ rule :: rest := rfl
          exact .stuck hhere .nil happlies hstuck
      | _ => cases hformulas
    · obtain ⟨i, rfl, hname, hget⟩ := resolve_undefined hresolve
      rw [carry_undefined hname hget]
      have hhere : Node.ruleName i :: rest = [] ++ .ruleName i :: rest := rfl
      exact .undefined hhere .nil hname hget

/-- **A chain is the fold of its single steps up to the first that fails**, if its rules are of
formulas: either all rules apply, and the result is that of the last one; or one of them does
not, and its status is that of the chain; or a name without a rule is reached. -/
theorem chain_iff_foldsTo (strict : Bool) {expr : Node} (hexpr : expr.IsFormula)
    {links : List Node} (hne : links ≠ []) (hlinks : ∀ r ∈ links, IsLink symbols r)
    (hrules : rules.HoldsFormulas) :
    ∃ target last, expr.applying links = .application target last ∧
      ∀ answer, chain symbols rules strict target last = answer ↔
        FoldsTo symbols rules strict expr links answer := by
  obtain ⟨before, last, rfl⟩ : ∃ before last, links = before ++ [last] :=
    ⟨links.dropLast, links.getLast hne, (List.dropLast_concat_getLast hne).symm⟩
  refine ⟨expr.applying before, last, Node.applying_append .., fun answer => ?_⟩
  rw [chain_applying hexpr]
  constructor
  · rintro rfl
    exact foldsTo_carry hrules hlinks hexpr
  · exact carry_of_foldsTo

/-- The second rule does not apply to what the first one has made, so the name that follows is
not looked up. -/
theorem chain_iff_foldsTo_stops_early :
    ∃ target last,
      (Node.binary (.atom 2) .conj (.atom 3)).applying [.ruleName 0,
          .equivalence (.neg (.atom 4)) (.atom 4), .ruleName 1] = .application target last ∧
        chain (.ofList ["drop", "later"])
          (.insert .empty "drop" (.equivalence (.binary (.atom 5) .conj (.atom 6)) (.atom 5)))
          true target last = .ok ⟨.mismatch, [⟨.neg (.atom 4), .atom 2, .negation⟩]⟩ := by
  have hdrop : Node.IsFormulaRule (.equivalence (.binary (.atom 5) .conj (.atom 6)) (.atom 5)) :=
    ⟨by decide, by decide⟩
  have hexpr : Node.IsFormula (.binary (.atom 2) .conj (.atom 3)) := by decide
  have hlinks : ∀ r ∈ [Node.ruleName 0, .equivalence (.neg (.atom 4)) (.atom 4), .ruleName 1],
      IsLink (.ofList ["drop", "later"]) r := by
    intro r hr
    simp only [List.mem_cons, List.not_mem_nil, or_false] at hr
    rcases hr with rfl | rfl | rfl
    · exact .inr ⟨0, "drop", rfl, rfl⟩
    · exact .inl ⟨by decide, by decide⟩
    · exact .inr ⟨1, "later", rfl, rfl⟩
  obtain ⟨target, last, heq, hiff⟩ := chain_iff_foldsTo true hexpr (List.cons_ne_nil _ _) hlinks
    (RuleStore.holdsFormulas_empty.insert hdrop "drop")
  have hfirst : Applies (.ofList ["drop", "later"])
      (.insert .empty "drop" (.equivalence (.binary (.atom 5) .conj (.atom 6)) (.atom 5)))
      true (.ruleName 0) (.binary (.atom 2) .conj (.atom 3)) ⟨.ok (.atom 2), []⟩ :=
    ⟨.binary (.atom 5) .conj (.atom 6), .atom 5, rfl, rfl⟩
  refine ⟨target, last, heq, (hiff _).2 ?_⟩
  exact .stuck rfl (.cons hfirst .nil) ⟨.neg (.atom 4), .atom 4, rfl, rfl⟩ nofun

end Rewrite

end Propositional
