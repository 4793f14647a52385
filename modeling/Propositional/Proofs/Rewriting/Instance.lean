/-
Strict matching finds a substitution whenever there is one. The walk through a
formula and an instance of it ends at each atom, where it meets what is put for
that atom (`meetings_subst`), and a match that goes on like this stays without
mismatch (`follow_agrees`). Together with the converse (`find_exact`) a strict
match tells whether an expression is an instance of a left-hand side, and by
which substitution; a strict step applies a rule to the instances of its
left-hand side and to nothing else.
-/
import Propositional.Proofs.Rewriting.Outcome

namespace Propositional

/-- If an instance of a formula is an expression, so is what is put for its atoms. -/
theorem Node.IsExpression.of_subst {σ : Int → Node} {n : Node} (hn : n.IsFormula)
    (h : (n.subst σ).IsExpression) : ∀ i ∈ n.atoms, (σ i).IsExpression := by
  induction hn with
  | atom i =>
    intro j hj
    rwa [List.mem_singleton.1 hj]
  | neg _ ih =>
    cases h with
    | neg h => exact ih h
  | group _ ih =>
    cases h with
    | group h => exact ih h
  | binary op _ _ ihl ihr =>
    cases h with
    | binary _ hl hr =>
      intro i hi
      exact (List.mem_append.1 hi).elim (ihl hl i) (ihr hr i)

namespace Match

theorem meetings_subst (σ : Int → Node) {n : Node} (hn : n.IsFormula) :
    meetings n (n.subst σ) = n.atoms.map fun i => .site i (σ i) := by
  rw [meetings]
  induction hn with
  | atom i => rfl
  | neg _ ih => exact ih
  | group _ ih => exact ih
  | @binary l r op _ _ ihl ihr =>
    have hl : (meetingsFrom id id (id ()) l (l.subst σ)).map (·.2) = _ := ihl
    have hr : (meetingsFrom id id (id ()) r (r.subst σ)).map (·.2) = _ := ihr
    rw [Node.subst, meetingsFrom, if_pos rfl, List.map_append, hl, hr, Node.atoms, List.map_append]

/-- No mismatch so far, and atoms are bound to what a substitution puts for them. -/
structure AgreesWith (σ : Int → Node) (m : Match) : Prop where
  clean : m.mismatches = []
  bound : ∀ {i n}, m.bindings.get? i = some n → n = σ i

theorem agreesWith_empty (σ : Int → Node) : AgreesWith σ empty := by
  refine ⟨rfl, fun h => ?_⟩
  rw [empty, OrderedMap.get?_empty] at h
  cases h

theorem meet_agrees {σ : Int → Node} {m : Match} (h : AgreesWith σ m) (i : Int) :
    ∃ m', m.meet true (.site i (σ i)) = .ok m' ∧ AgreesWith σ m' := by
  rw [meet]
  split
  · refine ⟨_, rfl, h.clean, fun {j n} hn => ?_⟩
    by_cases hj : j = i
    · subst hj
      rw [OrderedMap.get?_insert_self, Option.some.injEq] at hn
      exact hn.symm
    · rw [OrderedMap.get?_insert_of_ne _ hj] at hn
      exact h.bound hn
  · next n hn =>
    have hsame : n.same (σ i) = true := Node.same_iff.2 (h.bound hn)
    rw [hsame, Bool.not_true, Bool.and_false, if_neg Bool.false_ne_true]
    exact ⟨m, rfl, h⟩

theorem follow_agrees {σ : Int → Node} {m : Match} (h : AgreesWith σ m) (atoms : List Int) :
    ∃ m', follow true m (atoms.map fun i => .site i (σ i)) = .ok m' ∧ AgreesWith σ m' := by
  induction atoms generalizing m with
  | nil => exact ⟨m, rfl, h⟩
  | cons i atoms ih =>
    obtain ⟨m₁, hmeet, h₁⟩ := meet_agrees h i
    obtain ⟨m', hfollow, h'⟩ := ih h₁
    refine ⟨m', ?_, h'⟩
    rw [List.map_cons, follow, List.foldlM_cons, hmeet]
    exact hfollow

theorem subst_of_clean {lhs expr : Node} {m : Match} (h : find true lhs expr = .ok m)
    (hclean : m.mismatches = []) : lhs.subst m.bindings.toSubst = expr := by
  have hfollows := follow_follows h hclean
  have hsites : ∀ p ∈ meetingsFrom id id () lhs expr,
      ∃ i n, p.2 = .site i n ∧ m.bindings.toSubst i = n := by
    intro p hp
    obtain ⟨i, n, hsite, hn⟩ := hfollows.sites p.2 (List.mem_map_of_mem hp)
    exact ⟨i, n, hsite, Bindings.toSubst_of_get? hn⟩
  exact (subst_eq_of_sites hsites).2

theorem find_subst {lhs : Node} (hlhs : lhs.IsFormula) (σ : Int → Node) :
    ∃ m, find true lhs (lhs.subst σ) = .ok m ∧ m.mismatches = [] ∧
      ∀ i n, m.bindings.get? i = some n ↔ i ∈ lhs.atoms ∧ n = σ i := by
  obtain ⟨m, hfollow, hagrees⟩ := follow_agrees (agreesWith_empty σ) lhs.atoms
  have hfollows := follow_follows hfollow hagrees.clean
  refine ⟨m, ?_, hagrees.clean, fun i n => ⟨fun hn => ⟨?_, hagrees.bound hn⟩, ?_⟩⟩
  · rw [find, meetings_subst σ hlhs]
    exact hfollow
  · rcases hfollows.origin hn with hn | hn
    · rw [empty, OrderedMap.get?_empty] at hn
      cases hn
    · obtain ⟨j, hj, hsite⟩ := List.mem_map.1 hn
      cases hsite
      exact hj
  · rintro ⟨hi, rfl⟩
    obtain ⟨j, n, hsite, hn⟩ := hfollows.sites _ (List.mem_map_of_mem hi)
    cases hsite
    exact hn

/-- Matching strictly against a formula finds no mismatch exactly in its instances. -/
theorem find_clean_iff {lhs expr : Node} (hlhs : lhs.IsFormula) {m : Match}
    (h : find true lhs expr = .ok m) : m.mismatches = [] ↔ ∃ σ, lhs.subst σ = expr := by
  refine ⟨fun hclean => ⟨_, subst_of_clean h hclean⟩, ?_⟩
  rintro ⟨σ, rfl⟩
  obtain ⟨m', hm, hclean, -⟩ := find_subst hlhs σ
  rw [h] at hm
  cases hm
  exact hclean

end Match

namespace Rewrite

variable {lhs rhs expr : Node}

theorem step_subst (hlhs : lhs.IsFormula) (hrhs : rhs.IsFormula) (σ : Int → Node) :
    step true lhs rhs (lhs.subst σ) =
      .ok ⟨if ∀ i ∈ rhs.atoms, i ∈ lhs.atoms then .ok (rhs.subst σ) else .unbound, []⟩ := by
  obtain ⟨found, hfind, hclean, hbound⟩ := Match.find_subst hlhs σ
  have hok : found.ok = true := by rw [Match.ok, hclean, List.isEmpty_nil]
  have hatoms : rhs.isBound found.bindings ↔ ∀ i ∈ rhs.atoms, i ∈ lhs.atoms := by
    rw [Node.isBound_iff]
    refine forall₂_congr fun i _ => ⟨?_, fun hi => ⟨σ i, (hbound i _).2 ⟨hi, rfl⟩⟩⟩
    rintro ⟨n, hn⟩
    exact ((hbound i n).1 hn).1
  rw [step_of_find hfind hrhs, statusAfter, hok, hclean, Bool.not_true, Bool.and_false,
    if_neg Bool.false_ne_true]
  by_cases h : ∀ i ∈ rhs.atoms, i ∈ lhs.atoms
  · have hsame : rhs.subst found.bindings.toSubst = rhs.subst σ :=
      Node.subst_congr fun i hi => Bindings.toSubst_of_get? ((hbound i _).2 ⟨h i hi, rfl⟩)
    rw [if_pos (hatoms.2 h), if_pos h, hsame]
  · rw [if_neg (mt hatoms.1 h), if_neg h]

theorem step_of_not_subst (hlhs : lhs.IsFormula) (hrhs : rhs.IsFormula)
    (h : ¬ ∃ σ, lhs.subst σ = expr) :
    ∃ mismatches, step true lhs rhs expr = .ok ⟨.mismatch, mismatches⟩ := by
  obtain ⟨found, hfind⟩ := Match.find_ok true hlhs expr
  have hok : found.ok = false := by
    rw [Match.ok, List.isEmpty_eq_false_iff]
    exact mt (Match.find_clean_iff hlhs hfind).1 h
  refine ⟨found.mismatches, ?_⟩
  rw [step_of_find hfind hrhs, statusAfter, hok]
  rfl

/-- **Strict matching is matching by substitution.** Matching any expression
strictly against a formula finds no mismatch if and only if the expression is the
formula with something put for its atoms. The bindings are then exactly what is
put for these atoms, so that there is one such substitution, and putting them
back gives the expression; what is put into an expression are expressions. A
strict step by a rule whose sides are formulas therefore has the result `t` if and
only if the expression is such an instance of the left-hand side, all atoms of the
right-hand side are atoms of the left-hand side, and `t` is the same instance of
the right-hand side; and it is a mismatch if and only if the expression is no
instance. -/
theorem strict_match_is_substitution (hlhs : lhs.IsFormula) (expr : Node) :
    (∃ found, Match.find true lhs expr = .ok found ∧
      (found.mismatches = [] ↔ ∃ σ, lhs.subst σ = expr) ∧
      ∀ σ, lhs.subst σ = expr →
        (∀ i n, found.bindings.get? i = some n ↔ i ∈ lhs.atoms ∧ n = σ i) ∧
        lhs.substitute found.bindings = .ok expr ∧
        (expr.IsExpression → ∀ i ∈ lhs.atoms, (σ i).IsExpression)) ∧
    ∀ rhs : Node, rhs.IsFormula → ∃ outcome, step true lhs rhs expr = .ok outcome ∧
      (∀ t, outcome.status = .ok t ↔
        ∃ σ, lhs.subst σ = expr ∧ (∀ i ∈ rhs.atoms, i ∈ lhs.atoms) ∧ rhs.subst σ = t) ∧
      (outcome.status = .mismatch ↔ ¬ ∃ σ, lhs.subst σ = expr) := by
  constructor
  · obtain ⟨found, hfind⟩ := Match.find_ok true hlhs expr
    refine ⟨found, hfind, Match.find_clean_iff hlhs hfind, ?_⟩
    rintro σ rfl
    obtain ⟨m, hm, -, hbound⟩ := Match.find_subst hlhs σ
    rw [hfind] at hm
    cases hm
    have hall : lhs.isBound found.bindings :=
      Node.isBound_iff.2 fun i hi => ⟨σ i, (hbound i _).2 ⟨hi, rfl⟩⟩
    have hsame : lhs.subst found.bindings.toSubst = lhs.subst σ :=
      Node.subst_congr fun i hi => Bindings.toSubst_of_get? ((hbound i _).2 ⟨hi, rfl⟩)
    refine ⟨hbound, ?_, fun hexpr => hexpr.of_subst hlhs⟩
    rw [Node.substitute_formula found.bindings hlhs, if_pos hall, hsame]
  · intro rhs hrhs
    by_cases h : ∃ σ, lhs.subst σ = expr
    · obtain ⟨σ, rfl⟩ := h
      refine ⟨_, step_subst hlhs hrhs σ, fun t => ?_, ?_⟩
      · by_cases hatoms : ∀ i ∈ rhs.atoms, i ∈ lhs.atoms
        · rw [if_pos hatoms, RewriteStatus.ok.injEq]
          refine ⟨fun ht => ⟨σ, rfl, hatoms, ht⟩, ?_⟩
          rintro ⟨τ, hτ, -, rfl⟩
          exact Node.subst_congr fun i hi => (Node.subst_inj hlhs hτ i (hatoms i hi)).symm
        · rw [if_neg hatoms]
          exact ⟨nofun, fun ⟨_, _, hall, _⟩ => absurd hall hatoms⟩
      · refine ⟨fun hstatus => ?_, fun hnone => absurd ⟨σ, rfl⟩ hnone⟩
        split at hstatus <;> cases hstatus
    · obtain ⟨mismatches, hstep⟩ := step_of_not_subst hlhs hrhs h
      refine ⟨_, hstep, fun t => ⟨nofun, ?_⟩, fun _ => h, fun _ => rfl⟩
      rintro ⟨σ, hσ, -⟩
      exact absurd ⟨σ, hσ⟩ h

/-- A left-hand side with an atom twice, a group and a negation, and an instance of it. -/
theorem strict_match_repeated_atom :
    let lhs := Node.binary (.atom 0) .conj (.group (.binary (.neg (.atom 1)) .disj (.atom 0)))
    let rhs := Node.binary (.atom 1) .cond (.atom 0)
    let expr := Node.binary (.neg (.atom 7)) .conj
      (.group (.binary (.neg (.binary (.atom 0) .cond (.atom 1))) .disj (.neg (.atom 7))))
    lhs.IsFormula ∧ rhs.IsFormula ∧ ∃ outcome, step true lhs rhs expr = .ok outcome ∧
      outcome.status = .ok (.binary (.binary (.atom 0) .cond (.atom 1)) .cond (.neg (.atom 7))) := by
  intro lhs rhs expr
  have hlhs : lhs.IsFormula := by decide
  have hrhs : rhs.IsFormula := by decide
  obtain ⟨outcome, hstep, hresult, -⟩ := (strict_match_is_substitution hlhs expr).2 rhs hrhs
  refine ⟨hlhs, hrhs, outcome, hstep, (hresult _).2 ?_⟩
  refine ⟨fun i => if i = 0 then .neg (.atom 7) else .binary (.atom 0) .cond (.atom 1), ?_, ?_, ?_⟩
  · decide
  · decide
  · decide

end Rewrite

end Propositional
