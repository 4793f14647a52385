/-
What a rewriting step comes to. For a rule whose sides are formulas, matching
always ends (`find_ok`) and so does the step (`step_eq`): with a mismatch if
matching is strict and met one, else with the right-hand side in which the
bindings are put for the atoms, if each of them has one.
-/
import Propositional.Proofs.Rewriting.Chain

namespace Propositional

theorem bind_eq_error {α β : Type} {x : Except Fault α} {f : α → Except Fault β} {fault : Fault}
    (h : x >>= f = .error fault) : x = .error fault ∨ ∃ a, x = .ok a ∧ f a = .error fault := by
  cases x with
  | error fault' =>
    cases h
    exact .inl rfl
  | ok a => exact .inr ⟨a, rfl, h⟩

namespace Node

theorem substitute_error {bindings : Bindings} {n : Node} {fault : Fault} (hn : n.IsFormula)
    (h : n.substitute bindings = .error fault) :
    fault = .unboundAtom ∧ ∃ i ∈ n.atoms, bindings.get? i = none := by
  induction hn with
  | atom i =>
    rw [substitute] at h
    split at h
    · cases h
    · next hfree =>
      cases h
      exact ⟨rfl, i, List.mem_singleton_self i, hfree⟩
  | neg _ ih | group _ ih =>
    rcases bind_eq_error h with h | ⟨_, _, h⟩
    · exact ih h
    · cases h
  | binary op _ _ ihl ihr =>
    rcases bind_eq_error h with h | ⟨_, _, h⟩
    · obtain ⟨hfault, i, hi, hfree⟩ := ihl h
      exact ⟨hfault, i, List.mem_append_left _ hi, hfree⟩
    rcases bind_eq_error h with h | ⟨_, _, h⟩
    · obtain ⟨hfault, i, hi, hfree⟩ := ihr h
      exact ⟨hfault, i, List.mem_append_right _ hi, hfree⟩
    · cases h

/-- Whether each atom of a node has a binding. -/
def isBound (bindings : Bindings) (n : Node) : Bool :=
  n.atoms.all fun i => (bindings.get? i).isSome

theorem isBound_iff {bindings : Bindings} {n : Node} :
    n.isBound bindings ↔ ∀ i ∈ n.atoms, ∃ bound, bindings.get? i = some bound := by
  simp only [isBound, List.all_eq_true, Option.isSome_iff_exists]

theorem substitute_formula (bindings : Bindings) {n : Node} (hn : n.IsFormula) :
    n.substitute bindings =
      if n.isBound bindings then .ok (n.subst bindings.toSubst) else .error .unboundAtom := by
  cases h : n.substitute bindings with
  | ok result =>
    obtain ⟨-, hbound, rfl⟩ := substitute_ok h
    rw [if_pos (isBound_iff.2 hbound)]
  | error fault =>
    obtain ⟨rfl, i, hi, hfree⟩ := substitute_error hn h
    rw [if_neg]
    intro hbound
    obtain ⟨bound, hi⟩ := isBound_iff.1 hbound i hi
    rw [hfree] at hi
    cases hi

end Node

namespace Match

theorem meet_ok (strict : Bool) (m : Match) {e : Meeting} (h : ∀ n, e ≠ .improper n) :
    ∃ m', m.meet strict e = .ok m' := by
  cases e with
  | site i found =>
    rw [meet]
    split
    · exact ⟨_, rfl⟩
    · split <;> exact ⟨_, rfl⟩
  | clash mismatch => exact ⟨_, rfl⟩
  | improper n => exact absurd rfl (h n)

theorem follow_ok (strict : Bool) (m : Match) {ends : List Meeting}
    (h : ∀ e ∈ ends, ∀ n, e ≠ .improper n) : ∃ m', follow strict m ends = .ok m' := by
  induction ends generalizing m with
  | nil => exact ⟨m, rfl⟩
  | cons e ends ih =>
    obtain ⟨m₁, hmeet⟩ := meet_ok strict m (h e List.mem_cons_self)
    obtain ⟨m', hfollow⟩ := ih m₁ fun e he => h e (List.mem_cons_of_mem _ he)
    refine ⟨m', ?_⟩
    rw [follow, List.foldlM_cons, hmeet]
    exact hfollow

/-- The walk through a formula meets no node that is out of place in a rule. -/
theorem meetingsFrom_proper {first second : β → β} {here : β} {lhs expr : Node}
    (hlhs : lhs.IsFormula) {p : β × Meeting} (hp : p ∈ meetingsFrom first second here lhs expr)
    (n : Node) : p.2 ≠ .improper n := by
  fun_induction meetingsFrom first second here lhs expr with
  | case1 | case4 | case5 | case7 | case8 =>
    cases List.mem_singleton.1 hp
    intro himproper
    cases himproper
  | case2 here q e ih =>
    cases hlhs with
    | neg hq => exact ih hq hp
  | case3 here q e ih =>
    cases hlhs with
    | group hq => exact ih hq hp
  | case6 _ _ _ _ _ _ ihl ihr =>
    cases hlhs with
    | binary _ hl hr => exact (List.mem_append.1 hp).elim (ihl hl) (ihr hr)
  | case9 here q e hatom hneg hgroup hbinary =>
    cases hlhs with
    | atom i => exact absurd rfl (hatom i)
    | neg => exact absurd rfl (hneg _)
    | group => exact absurd rfl (hgroup _)
    | binary => exact absurd rfl (hbinary _ _ _)

theorem find_ok (strict : Bool) {lhs : Node} (hlhs : lhs.IsFormula) (expr : Node) :
    ∃ m, find strict lhs expr = .ok m := by
  refine follow_ok strict empty fun e he n => ?_
  obtain ⟨p, hp, rfl⟩ := List.mem_map.1 he
  exact meetingsFrom_proper hlhs hp n

end Match

namespace Rewrite

/-- How a step ends after a match. -/
def statusAfter (strict : Bool) (found : Match) (rhs : Node) : RewriteStatus :=
  if strict && !found.ok then .mismatch
  else if rhs.isBound found.bindings then .ok (rhs.subst found.bindings.toSubst)
  else .unbound

theorem step_of_find {strict : Bool} {lhs rhs expr : Node} {found : Match}
    (hfind : Match.find strict lhs expr = .ok found) (hrhs : rhs.IsFormula) :
    step strict lhs rhs expr = .ok ⟨statusAfter strict found rhs, found.mismatches⟩ := by
  simp only [step, hfind, statusAfter, bind, Except.bind]
  split
  · rfl
  · rw [Node.substitute_formula found.bindings hrhs]
    cases rhs.isBound found.bindings <;> rfl

/-- A step by a rule whose sides are formulas has no fault. -/
theorem step_eq (strict : Bool) {lhs rhs : Node} (hlhs : lhs.IsFormula) (hrhs : rhs.IsFormula)
    (expr : Node) :
    ∃ found, Match.find strict lhs expr = .ok found ∧
      step strict lhs rhs expr = .ok ⟨statusAfter strict found rhs, found.mismatches⟩ := by
  obtain ⟨found, hfind⟩ := Match.find_ok strict hlhs expr
  exact ⟨found, hfind, step_of_find hfind hrhs⟩

end Rewrite

end Propositional
