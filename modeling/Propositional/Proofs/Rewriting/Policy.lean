/-
Strict and permissive matching side by side. Both walk the same way and bind the same;
strict matching records, besides, where an atom meets something else than before
(`find_lenient`). So a strict step that succeeds is also the permissive one, and so is a
permissive step without mismatches by a rule whose left-hand side has each atom once
(`goesAs_permissive`, `goesAs_strict`): only where an atom comes again is the policy
consulted. If one policy goes through each step of a chain as the other does, it goes
through the chain as the other does, and no deeper (`ChainGoesAs.chain_eq`,
`ChainGoesAs.overrun`).
-/
import Propositional.Proofs.Rewriting.Links
import Propositional.Rewriting.Depth

namespace Propositional

namespace Match

variable {m m' : Match} {lhs expr : Node}

/-! ## What strict matching records besides -/

/-- What is left of a match without the bindings that were inconsistent. -/
def lenient (m : Match) : Match :=
  ⟨m.bindings, m.mismatches.filter fun mismatch => mismatch.reason ≠ .inconsistent⟩

theorem lenient_of_clean (h : m.mismatches = []) : m.lenient = m := by
  rw [lenient, h, List.filter_nil, ← h]

theorem lenient_record (m : Match) (mismatch : Mismatch) :
    (m.record mismatch).lenient =
      if mismatch.reason = .inconsistent then m.lenient else m.lenient.record mismatch := by
  rw [lenient, record, List.filter_append]
  by_cases h : mismatch.reason = .inconsistent <;> simp [h, lenient, record]

/-- A walk clashes over the shapes of nodes only. -/
theorem reason_of_clash {first second : β → β} {here : β} {p : β × Meeting}
    (hp : p ∈ meetingsFrom first second here lhs expr) {mismatch : Mismatch}
    (hclash : p.2 = .clash mismatch) : mismatch.reason ≠ .inconsistent := by
  fun_induction meetingsFrom first second here lhs expr with
  | case2 here q e ih => exact ih hp
  | case3 here q e ih => exact ih hp
  | case6 _ _ _ _ _ _ ihl ihr => exact (List.mem_append.1 hp).elim ihl ihr
  | case1 | case9 =>
    cases List.mem_singleton.1 hp
    cases hclash
  | case4 | case5 | case7 | case8 =>
    cases List.mem_singleton.1 hp
    cases hclash
    exact MismatchReason.noConfusion

theorem meet_lenient {e : Meeting} (he : ∀ mismatch, e = .clash mismatch →
    mismatch.reason ≠ .inconsistent) (h : m.meet true e = .ok m') :
    m.lenient.meet false e = .ok m'.lenient := by
  cases e with
  | improper => cases h
  | clash mismatch =>
    cases h
    rw [lenient_record, if_neg (he mismatch rfl)]
    rfl
  | site i found =>
    have hbindings : m.lenient.bindings = m.bindings := rfl
    rw [meet] at h ⊢
    rw [hbindings]
    cases hget : m.bindings.get? i with
    | none =>
      rw [hget] at h
      cases h
      rfl
    | some bound =>
      rw [hget] at h
      dsimp only at h
      split at h
      · cases h
        rw [lenient_record, if_pos rfl]
        rfl
      · cases h
        rfl

theorem follow_lenient {ends : List Meeting} (hends : ∀ e ∈ ends, ∀ mismatch,
    e = .clash mismatch → mismatch.reason ≠ .inconsistent) (h : follow true m ends = .ok m') :
    follow false m.lenient ends = .ok m'.lenient := by
  induction ends generalizing m with
  | nil =>
    cases h
    rfl
  | cons e ends ih =>
    rw [follow_cons] at h ⊢
    obtain ⟨next, hmeet, hrest⟩ := bind_eq_ok h
    rw [meet_lenient (hends e List.mem_cons_self) hmeet]
    exact ih (fun e' he' => hends e' (List.mem_cons_of_mem _ he')) hrest

/-- **The permissive match is the strict one without the inconsistent bindings.** -/
theorem find_lenient (h : find true lhs expr = .ok m) : find false lhs expr = .ok m.lenient := by
  refine follow_lenient (m := empty) (fun e he mismatch hclash => ?_) h
  obtain ⟨p, hp, rfl⟩ := List.mem_map.1 he
  exact reason_of_clash hp hclash

/-! ## Atoms that come once -/

/-- The atoms that are met, as often as they are met. -/
def sites (ends : List Meeting) : List Int :=
  ends.filterMap fun
    | .site i _ => some i
    | .clash _ | .improper _ => none

/-- The atoms of a left-hand side are met in order, those after a clash left out. -/
theorem sites_meetingsFrom (first second : β → β) (here : β) (lhs expr : Node) :
    (sites ((meetingsFrom first second here lhs expr).map (·.2))).Sublist lhs.atoms := by
  fun_induction meetingsFrom first second here lhs expr with
  | case1 => exact List.Sublist.refl _
  | case2 here q e ih => exact ih
  | case3 here q e ih => exact ih
  | case6 _ _ _ _ _ _ ihl ihr =>
    rw [List.map_append, sites, List.filterMap_append]
    exact ihl.append ihr
  | case4 | case5 | case7 | case8 | case9 => exact List.nil_sublist _

/-- No atom that is still to be met is bound, and none is met twice. -/
structure MeetsOnce (m : Match) (ends : List Meeting) : Prop where
  nodup : (sites ends).Nodup
  free : ∀ i ∈ sites ends, m.bindings.get? i = none

theorem meetsOnce_empty {ends : List Meeting} (h : (sites ends).Nodup) : MeetsOnce empty ends :=
  ⟨h, fun i _ => OrderedMap.get?_empty i⟩

theorem MeetsOnce.meet {e : Meeting} {ends : List Meeting} (h : MeetsOnce m (e :: ends)) :
    m.meet true e = m.meet false e := by
  cases e with
  | clash | improper => rfl
  | site i found =>
    have hfree := h.free i List.mem_cons_self
    rw [Match.meet, Match.meet, hfree]

theorem MeetsOnce.next {strict : Bool} {e : Meeting} {ends : List Meeting}
    (h : MeetsOnce m (e :: ends)) (hmeet : m.meet strict e = .ok m') : MeetsOnce m' ends := by
  cases e with
  | improper => cases hmeet
  | clash =>
    cases hmeet
    exact ⟨h.nodup, h.free⟩
  | site i found =>
    obtain ⟨hi, hnodup⟩ := List.nodup_cons.1 h.nodup
    rw [Match.meet, h.free i List.mem_cons_self] at hmeet
    cases hmeet
    refine ⟨hnodup, fun j hj => ?_⟩
    have hji : j ≠ i := fun heq => hi (heq ▸ hj)
    rw [OrderedMap.get?_insert_of_ne _ hji]
    exact h.free j (List.mem_cons_of_mem _ hj)

theorem MeetsOnce.follow {ends : List Meeting} (h : MeetsOnce m ends) :
    Match.follow true m ends = Match.follow false m ends := by
  induction ends generalizing m with
  | nil => rfl
  | cons e ends ih =>
    rw [follow_cons, follow_cons, h.meet]
    cases hmeet : m.meet false e with
    | error fault => rfl
    | ok next => exact ih (h.next hmeet)

end Match

namespace Rewrite

open Nesting (Bound)

/-! ## Steps -/

/-- Policy `q` takes a step as policy `p` does, and goes beyond no bound that `p` stays within. -/
structure GoesAs (p q : Bool) (lhs rhs expr : Node) : Prop where
  step : step q lhs rhs expr = step p lhs rhs expr
  depth : ∀ bound marks, stepOverrun bound p marks lhs rhs expr = none →
    stepOverrun bound q marks lhs rhs expr = none

variable {lhs rhs expr : Node} {bound : Bound} {held : Int → Option Marks}

theorem matchOverrun_permissive {met : List (Spot × Meeting)} {m m' : Match}
    (h : matchOverrun bound true held m met = none) :
    matchOverrun bound false held m' met = none := by
  induction met generalizing m m' with
  | nil => rfl
  | cons p met ih =>
    obtain ⟨spot, e⟩ := p
    rw [matchOverrun] at h ⊢
    split at h
    · cases h
    next hwithin =>
      have hwithin' : ¬ meetingOverruns bound false held m'.bindings spot e = true := by
        cases e <;> simp_all [meetingOverruns]
      rw [if_neg hwithin']
      cases e with
      | improper => rfl
      | clash => exact ih h
      | site i found =>
        obtain ⟨next, hnext⟩ := Match.meet_ok true m (e := .site i found) (by simp)
        obtain ⟨next', hnext'⟩ := Match.meet_ok false m' (e := .site i found) (by simp)
        rw [hnext] at h
        rw [hnext']
        exact ih h

/-- Where each atom is met once, a match goes equally deep under either policy. -/
theorem matchOverrun_once {met : List (Spot × Meeting)} {m : Match}
    (h : m.MeetsOnce (met.map (·.2))) :
    matchOverrun bound true held m met = matchOverrun bound false held m met := by
  induction met generalizing m with
  | nil => rfl
  | cons p met ih =>
    obtain ⟨spot, e⟩ := p
    have hdepth : meetingOverruns bound true held m.bindings spot e =
        meetingOverruns bound false held m.bindings spot e := by
      cases e with
      | clash | improper => rfl
      | site i found =>
        rw [meetingOverruns, meetingOverruns, h.free i List.mem_cons_self]
        rfl
    rw [matchOverrun, matchOverrun, hdepth, h.meet]
    cases hmeet : m.meet false e with
    | error fault => rfl
    | ok next => simp only [ih (h.next hmeet)]

theorem step_of_clean {found : Match} (htrue : Match.find true lhs expr = .ok found)
    (hfalse : Match.find false lhs expr = .ok found) (hclean : found.mismatches = []) :
    step true lhs rhs expr = step false lhs rhs expr := by
  have hok : found.ok = true := by rw [Match.ok, hclean, List.isEmpty_nil]
  simp only [step, htrue, hfalse, bind, Except.bind, hok, Bool.not_true, Bool.and_false]

/-- A step without mismatches stays within a bound if its match and its substitution do. -/
theorem stepOverrun_of_clean {strict : Bool} {found : Match}
    (hfind : Match.find strict lhs expr = .ok found) (hclean : found.mismatches = [])
    (marks : Marks) :
    stepOverrun bound strict marks lhs rhs expr = none ↔
      matchOverrun bound strict (heldMarks (ends marks lhs expr)) .empty (ends marks lhs expr) =
          none ∧
        substitutionOverruns bound found.bindings (atomLevels 1 rhs) = false := by
  have hok : found.ok = true := by rw [Match.ok, hclean, List.isEmpty_nil]
  rw [stepOverrun]
  cases matchOverrun bound strict (heldMarks (ends marks lhs expr)) .empty
      (ends marks lhs expr) with
  | some mismatches => simp
  | none => simp [hfind, hok]

theorem clean_of_strict {t : Node} {outcome : Rewrite} (h : step true lhs rhs expr = .ok outcome)
    (hstatus : outcome.status = .ok t) :
    ∃ found, Match.find true lhs expr = .ok found ∧ found.mismatches = [] := by
  obtain ⟨found, hfind, h⟩ := bind_eq_ok h
  refine ⟨found, hfind, ?_⟩
  split at h
  · cases h
    cases hstatus
  next hok => simpa [Match.ok] using hok

theorem found_of_step {strict : Bool} {outcome : Rewrite}
    (h : step strict lhs rhs expr = .ok outcome) :
    ∃ found, Match.find strict lhs expr = .ok found ∧ found.mismatches = outcome.mismatches := by
  obtain ⟨found, hfind, h⟩ := bind_eq_ok h
  refine ⟨found, hfind, ?_⟩
  split at h
  · cases h
    rfl
  · split at h <;> cases h <;> rfl

/-- **A strict step that succeeds is the permissive one.** -/
theorem goesAs_permissive {t : Node} {outcome : Rewrite}
    (h : step true lhs rhs expr = .ok outcome) (hstatus : outcome.status = .ok t) :
    GoesAs true false lhs rhs expr := by
  obtain ⟨found, hstrict, hclean⟩ := clean_of_strict h hstatus
  have hpermissive : Match.find false lhs expr = .ok found := by
    rw [Match.find_lenient hstrict, Match.lenient_of_clean hclean]
  refine ⟨(step_of_clean hstrict hpermissive hclean).symm, fun bound marks hwithin => ?_⟩
  rw [stepOverrun_of_clean hstrict hclean] at hwithin
  rw [stepOverrun_of_clean hpermissive hclean]
  exact ⟨matchOverrun_permissive hwithin.1, hwithin.2⟩

/-- **A permissive step without mismatches is the strict one**, if the left-hand side has
each atom once. -/
theorem goesAs_strict {outcome : Rewrite} (h : step false lhs rhs expr = .ok outcome)
    (hclean : outcome.mismatches = []) (honce : lhs.atoms.Nodup) :
    GoesAs false true lhs rhs expr := by
  obtain ⟨found, hpermissive, hfound⟩ := found_of_step h
  have hsites : ∀ {β : Type} (first second : β → β) (here : β),
      Match.empty.MeetsOnce ((meetingsFrom first second here lhs expr).map (·.2)) :=
    fun first second here =>
      Match.meetsOnce_empty ((Match.sites_meetingsFrom first second here lhs expr).nodup honce)
  have hstrict : Match.find true lhs expr = .ok found :=
    (hsites id id ()).follow.trans hpermissive
  rw [hclean] at hfound
  refine ⟨step_of_clean hstrict hpermissive hfound, fun bound marks hwithin => ?_⟩
  rw [stepOverrun_of_clean hpermissive hfound] at hwithin
  rw [stepOverrun_of_clean hstrict hfound, ends, matchOverrun_once (hsites _ _ _)]
  exact hwithin

/-! ## Chains -/

variable {symbols : Symbols} {rules : RuleStore} {p q : Bool}

/-- Policy `q` takes the steps of a chain as policy `p` does, up to a new expression. -/
inductive ChainGoesAs (symbols : Symbols) (rules : RuleStore) (p q : Bool) :
    Node → List Node → Prop
  | nil (expr : Node) : ChainGoesAs symbols rules p q expr []
  | cons {expr rule lhs rhs middle : Node} {before : Rewrite} {rest : List Node} :
      resolve symbols rules rule = .ok (.equivalence lhs rhs) →
      step p lhs rhs expr = .ok before → before.status = .ok middle → GoesAs p q lhs rhs expr →
      ChainGoesAs symbols rules p q middle rest → ChainGoesAs symbols rules p q expr (rule :: rest)

theorem carry_cons_ok {rule t : Node} {rest : List Node} {outcome : Rewrite}
    (h : carry symbols rules p expr (rule :: rest) = .ok outcome)
    (hstatus : outcome.status = .ok t) :
    ∃ lhs rhs before middle after, resolve symbols rules rule = .ok (.equivalence lhs rhs) ∧
      step p lhs rhs expr = .ok before ∧ before.status = .ok middle ∧
      carry symbols rules p middle rest = .ok after ∧ after.status = .ok t := by
  obtain ⟨before, hbefore, h⟩ := bind_eq_ok h
  obtain ⟨lhs, rhs, hresolve, hstep⟩ := byRule_ok hbefore
  cases hmiddle : before.status with
  | ok middle =>
    rw [followedBy_ok hmiddle] at h
    obtain ⟨after, hafter, h⟩ := bind_eq_ok h
    cases h
    exact ⟨lhs, rhs, before, middle, after, hresolve, hstep, hmiddle, hafter, hstatus⟩
  | mismatch | unbound =>
    rw [followedBy_stuck (by simp [hmiddle])] at h
    cases h
    rw [hmiddle] at hstatus
    cases hstatus

theorem chainGoesAs_permissive {links : List Node} {outcome : Rewrite} {t : Node}
    (h : carry symbols rules true expr links = .ok outcome) (hstatus : outcome.status = .ok t) :
    ChainGoesAs symbols rules true false expr links := by
  induction links generalizing expr outcome with
  | nil => exact .nil expr
  | cons rule rest ih =>
    obtain ⟨lhs, rhs, before, middle, after, hresolve, hstep, hmiddle, hafter, hstatus⟩ :=
      carry_cons_ok h hstatus
    exact .cons hresolve hstep hmiddle (goesAs_permissive hstep hmiddle) (ih hafter hstatus)

theorem chainGoesAs_strict {links : List Node} {outcome : Rewrite} {t : Node}
    (h : carry symbols rules false expr links = .ok outcome) (hstatus : outcome.status = .ok t)
    (hsteps : ∀ s ∈ stepsFrom symbols rules false expr links,
      s.outcome.mismatches = [] ∧ s.lhs.atoms.Nodup) :
    ChainGoesAs symbols rules false true expr links := by
  induction links generalizing expr outcome with
  | nil => exact .nil expr
  | cons rule rest ih =>
    obtain ⟨lhs, rhs, before, middle, after, hresolve, hstep, hmiddle, hafter, hstatus⟩ :=
      carry_cons_ok h hstatus
    simp only [stepsFrom, hresolve, hstep, hmiddle, List.forall_mem_cons] at hsteps
    obtain ⟨⟨hclean, honce⟩, hrest⟩ := hsteps
    exact .cons hresolve hstep hmiddle (goesAs_strict hstep hclean honce) (ih hafter hstatus hrest)

theorem ChainGoesAs.steps {links : List Node} (h : ChainGoesAs symbols rules p q expr links) :
    stepsFrom symbols rules q expr links = stepsFrom symbols rules p expr links := by
  induction h with
  | nil => rfl
  | cons hresolve hstep hmiddle hgoes _ ih =>
    simp only [stepsFrom, hresolve, hgoes.step, hstep, hmiddle, ih]

theorem ChainGoesAs.carry {links : List Node} (h : ChainGoesAs symbols rules p q expr links) :
    Rewrite.carry symbols rules q expr links = Rewrite.carry symbols rules p expr links := by
  induction h with
  | nil => rfl
  | cons hresolve hstep hmiddle hgoes _ ih =>
    rw [carry_cons, carry_cons, byRule_eq hresolve, byRule_eq hresolve, hgoes.step, hstep]
    change followedBy _ _ = followedBy _ _
    rw [followedBy_ok hmiddle, followedBy_ok hmiddle, ih]

theorem ChainGoesAs.overrunFrom {links : List Node} (h : ChainGoesAs symbols rules p q expr links)
    {marks : Marks} {next : Nat}
    (hwithin : Rewrite.overrunFrom bound symbols rules p expr marks next links = none) :
    Rewrite.overrunFrom bound symbols rules q expr marks next links = none := by
  induction h generalizing marks next with
  | nil => rfl
  | @cons expr rule lhs rhs middle before rest hresolve hstep hmiddle hgoes _ ih =>
    obtain ⟨status, mismatches⟩ := before
    cases hmiddle
    simp only [Rewrite.overrunFrom, hresolve, hgoes.step, hstep] at hwithin ⊢
    cases hdepth : stepOverrun (bound.below rest.length) p marks lhs rhs expr with
    | some mismatches =>
      rw [hdepth] at hwithin
      cases hwithin
    | none =>
      rw [hdepth] at hwithin
      rw [hgoes.depth (bound.below rest.length) marks hdepth]
      simp only [Option.map_eq_none_iff] at hwithin ⊢
      exact ih hwithin

/-! The same for chains as they are read. -/

section Read

variable {target rule : Node}
  (h : ChainGoesAs symbols rules p q (links target rule).1 (links target rule).2)

include h

theorem ChainGoesAs.chain_eq :
    chain symbols rules q target rule = chain symbols rules p target rule := by
  rw [chain_eq_carry, chain_eq_carry, h.carry]

theorem ChainGoesAs.steps_eq :
    Rewrite.steps symbols rules q target rule = Rewrite.steps symbols rules p target rule :=
  h.steps

theorem ChainGoesAs.overrun
    (hwithin : Rewrite.overrun bound symbols rules p target rule = none) :
    Rewrite.overrun bound symbols rules q target rule = none := by
  simp only [Rewrite.overrun] at hwithin ⊢
  split at hwithin
  · cases hwithin
  next hlength =>
    rw [if_neg hlength]
    exact h.overrunFrom hwithin

end Read

end Rewrite

end Propositional
