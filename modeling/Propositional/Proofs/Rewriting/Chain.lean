/-
Strict rewriting keeps the meaning. A step by a rule whose sides have the same
truth values takes a formula to one with the same truth values (`step_keeps`):
the formula is the left-hand side with the bindings put in, the result the
right-hand side with the same bindings. A chain does so by induction on its
links (`chain_keeps`).
-/
import Propositional.Proofs.Grammar
import Propositional.Proofs.Rewriting.Match
import Propositional.Rewriting.Rewrite

namespace Propositional

theorem Node.substitute_ok {bindings : Bindings} {n result : Node}
    (h : n.substitute bindings = .ok result) :
    n.IsFormula ∧ (∀ i ∈ n.atoms, ∃ bound, bindings.get? i = some bound) ∧
      result = n.subst bindings.toSubst := by
  induction n generalizing result with
  | atom i =>
    rw [substitute] at h
    split at h
    · next bound hbound =>
      cases h
      refine ⟨.atom i, fun j hj => ?_, (Bindings.toSubst_of_get? hbound).symm⟩
      cases List.mem_singleton.1 hj
      exact ⟨result, hbound⟩
    · cases h
  | neg x ih =>
    obtain ⟨y, hy, h⟩ := bind_eq_ok h
    obtain ⟨hx, hbound, rfl⟩ := ih hy
    exact ⟨.neg hx, hbound, (Except.ok.inj h).symm⟩
  | group x ih =>
    obtain ⟨y, hy, h⟩ := bind_eq_ok h
    obtain ⟨hx, hbound, rfl⟩ := ih hy
    exact ⟨.group hx, hbound, (Except.ok.inj h).symm⟩
  | binary l op r ihl ihr =>
    obtain ⟨left, hleft, h⟩ := bind_eq_ok h
    obtain ⟨right, hright, h⟩ := bind_eq_ok h
    obtain ⟨hl, hlbound, rfl⟩ := ihl hleft
    obtain ⟨hr, hrbound, rfl⟩ := ihr hright
    refine ⟨.binary op hl hr, fun i hi => ?_, (Except.ok.inj h).symm⟩
    exact (List.mem_append.1 hi).elim (hlbound i) (hrbound i)
  | equivalence | ruleName | application | binding | stray => cases h

/-- All rules that are stored keep the meaning. -/
def RuleStore.IsSound (rules : RuleStore) : Prop :=
  ∀ name rule, rules.get? name = some rule → rule.IsSoundRule

namespace Rewrite

/-- The result is a formula with the truth values of the expression. -/
structure Keeps (expr result : Node) : Prop where
  formula : result.IsFormula
  value : ∀ v, result.holds v = expr.holds v

theorem Keeps.trans {a b c : Node} (h₁ : Keeps a b) (h₂ : Keeps b c) : Keeps a c :=
  ⟨h₂.formula, fun v => (h₂.value v).trans (h₁.value v)⟩

theorem step_keeps {lhs rhs expr result : Node} {outcome : Rewrite}
    (h : step true lhs rhs expr = .ok outcome) (hstatus : outcome.status = .ok result)
    (hsound : (Node.equivalence lhs rhs).IsSoundRule) (hexpr : expr.IsFormula) :
    Keeps expr result := by
  obtain ⟨found, hfind, h⟩ := bind_eq_ok h
  split at h
  · cases h
    cases hstatus
  · next hok =>
    have hclean : found.mismatches = [] := by simpa [Match.ok] using hok
    obtain ⟨hlhs, hmatch, hbound⟩ := Match.find_exact hfind hclean hexpr
    split at h
    · next substituted hsubst =>
      cases h
      cases hstatus
      obtain ⟨hrhs, hatoms, rfl⟩ := Node.substitute_ok hsubst
      refine ⟨hrhs.subst fun i hi => ?_, fun v => ?_⟩
      · obtain ⟨n, hn⟩ := hatoms i hi
        rw [Bindings.toSubst_of_get? hn]
        exact hbound i n hn
      · rw [Node.holds_subst v _ hrhs, ← hmatch, Node.holds_subst v _ hlhs]
        exact (hsound _).symm
    · cases h
      cases hstatus
    · cases h

variable {symbols : Symbols} {rules : RuleStore}

theorem resolve_sound {rule resolved : Node} (h : resolve symbols rules rule = .ok resolved)
    (hstored : rules.IsSound) : resolved = rule ∨ resolved.IsSoundRule := by
  cases rule with
  | ruleName i =>
    obtain ⟨name, -, h⟩ := bind_eq_ok h
    rw [RuleStore.find] at h
    split at h
    · next stored hget =>
      cases h
      exact .inr (hstored name _ hget)
    · cases h
  | _ => exact .inl (Except.ok.inj h).symm

theorem byRule_keeps {rule expr result : Node} {outcome : Rewrite}
    (h : byRule symbols rules true rule expr = .ok outcome) (hstatus : outcome.status = .ok result)
    (hstored : rules.IsSound)
    (hinline : ∀ lhs rhs, rule = .equivalence lhs rhs → rule.IsSoundRule)
    (hexpr : expr.IsFormula) : Keeps expr result := by
  obtain ⟨resolved, hresolve, h⟩ := bind_eq_ok h
  split at h
  · next lhs rhs =>
    have hsound : (Node.equivalence lhs rhs).IsSoundRule := by
      rcases resolve_sound hresolve hstored with rfl | hsound
      · exact hinline lhs rhs rfl
      · exact hsound
    exact step_keeps h hstatus hsound hexpr
  · cases h

theorem link_keeps {target rule result : Node} {outcome : Rewrite}
    (hchain : chain symbols rules true target rule = byRule symbols rules true rule target)
    (hlinks : links target rule = (target, [rule]))
    (h : chain symbols rules true target rule = .ok outcome)
    (hstatus : outcome.status = .ok result) (hstored : rules.IsSound)
    (hinline : ∀ lhs rhs, Node.equivalence lhs rhs ∈ (links target rule).2 →
      (Node.equivalence lhs rhs).IsSoundRule)
    (hhead : (links target rule).1.IsFormula) : Keeps (links target rule).1 result := by
  rw [hchain] at h
  rw [hlinks] at hinline hhead ⊢
  refine byRule_keeps h hstatus hstored ?_ hhead
  rintro lhs rhs rfl
  exact hinline lhs rhs (List.mem_singleton_self _)

/-- A chain all of whose rules are sound, by induction on its links from the last one on. -/
theorem chain_keeps {target rule result : Node} {outcome : Rewrite}
    (h : chain symbols rules true target rule = .ok outcome)
    (hstatus : outcome.status = .ok result) (hstored : rules.IsSound)
    (hinline : ∀ lhs rhs, Node.equivalence lhs rhs ∈ (links target rule).2 →
      (Node.equivalence lhs rhs).IsSoundRule)
    (hhead : (links target rule).1.IsFormula) : Keeps (links target rule).1 result := by
  induction target generalizing rule result outcome with
  | application t inner iht _ =>
    obtain ⟨before, hbefore, h⟩ := bind_eq_ok h
    have hlast : ∀ lhs rhs, rule = .equivalence lhs rhs → rule.IsSoundRule := by
      rintro lhs rhs rfl
      exact hinline lhs rhs (List.mem_append_right _ (List.mem_singleton_self _))
    split at h
    · next middle hmiddle =>
      obtain ⟨after, hafter, h⟩ := bind_eq_ok h
      cases h
      have hkept := iht hbefore hmiddle
        (fun lhs rhs hmem => hinline lhs rhs (List.mem_append_left _ hmem)) hhead
      exact hkept.trans (byRule_keeps hafter hstatus hstored hlast hkept.formula)
    · next hstuck =>
      cases h
      exact absurd hstatus (hstuck result)
  | _ => exact link_keeps rfl rfl h hstatus hstored hinline hhead

end Rewrite

namespace Grammar

/-- Rules that have been read one after the other apply to a formula. -/
theorem Rewrites.head {index : String → Int} {tokens : List Token} {target : Node}
    (h : Rewrites index tokens target) (rule : Node) : (Rewrite.links target rule).1.IsFormula := by
  induction h generalizing rule with
  | @formula tokens n hf =>
    have hn := hf.isFormula
    cases n with
    | application => cases hn
    | _ => exact hn
  | apply _ _ _ _ _ ih => exact ih _

theorem Statement.head {index : String → Int} {tokens : List Token} {target rule : Node}
    (h : Statement index tokens (.application target rule)) :
    (Rewrite.links target rule).1.IsFormula := by
  cases h with
  | rewrites h =>
    cases h with
    | formula hf => cases hf.isFormula
    | apply _ _ htarget => exact htarget.head _
  | byName _ _ htarget => exact htarget.head _

end Grammar

end Propositional
