/-
Rewriting does not depend on how atoms are numbered. If the atoms of a rule are
numbered anew, and apart from them those of the expression, then all that matching
meets, binds and finds in its way is the same but for the numbers (`follow_renumbered`),
and so is what a step comes to (`step_renumbered`). The numbers only have to tell
apart what was different before. At the end of a chain, then, a rule may be exchanged for
the same rule with other numbers: the same is shown of the outcome (`chain_renumbered`).
-/
import Propositional.Proofs.Rewriting.Links

namespace Propositional

/-- The numbering tells the listed atoms apart. -/
def DistinctOn (ρ : Int → Int) (atoms : List Int) : Prop :=
  ∀ i ∈ atoms, ∀ j ∈ atoms, ρ i = ρ j → i = j

theorem DistinctOn.mono {ρ : Int → Int} {xs ys : List Int} (h : DistinctOn ρ ys)
    (hsub : ∀ i ∈ xs, i ∈ ys) : DistinctOn ρ xs :=
  fun i hi j hj => h i (hsub i hi) j (hsub j hj)

namespace Node

theorem IsFormula.renumbered {n : Node} (h : n.IsFormula) (ρ : Int → Int) :
    (n.renumbered ρ).IsFormula :=
  h.subst fun i _ => .atom (ρ i)

theorem atoms_renumbered (ρ : Int → Int) (n : Node) : (n.renumbered ρ).atoms = n.atoms.map ρ := by
  induction n with
  | atom i => rfl
  | neg x ih | group x ih => exact ih
  | binary l op r ihl ihr =>
    rw [renumbered, subst, atoms, atoms, List.map_append, ihl, ihr]
  | equivalence | ruleName | application | binding | stray => rfl

/-- Formulas over atoms that are told apart are told apart. -/
theorem renumbered_inj {ρ : Int → Int} {atoms : List Int} (hρ : DistinctOn ρ atoms) {a b : Node}
    (ha : a.IsFormula) (hb : b.IsFormula) (hasub : ∀ i ∈ a.atoms, i ∈ atoms)
    (hbsub : ∀ i ∈ b.atoms, i ∈ atoms) (h : a.renumbered ρ = b.renumbered ρ) : a = b := by
  induction ha generalizing b with
  | atom i =>
    cases hb with
    | atom j =>
      have hij : ρ i = ρ j := atom.inj h
      rw [hρ i (hasub i (List.mem_singleton_self i)) j (hbsub j (List.mem_singleton_self j)) hij]
    | neg | group | binary => cases h
  | neg _ ih =>
    cases hb with
    | neg hy => rw [ih hy hasub hbsub (neg.inj h)]
    | atom | group | binary => cases h
  | group _ ih =>
    cases hb with
    | group hy => rw [ih hy hasub hbsub (group.inj h)]
    | atom | neg | binary => cases h
  | binary op _ _ ihl ihr =>
    cases hb with
    | binary op' hl hr =>
      obtain ⟨hleft, rfl, hright⟩ := binary.inj h
      rw [ihl hl (fun i hi => hasub i (List.mem_append_left _ hi))
          (fun i hi => hbsub i (List.mem_append_left _ hi)) hleft,
        ihr hr (fun i hi => hasub i (List.mem_append_right _ hi))
          (fun i hi => hbsub i (List.mem_append_right _ hi)) hright]
    | atom | neg | group => cases h

theorem same_renumbered {ρ : Int → Int} {expr a b : Node} (hρ : DistinctOn ρ expr.atoms)
    (ha : expr.Over a) (hb : expr.Over b) :
    (a.renumbered ρ).same (b.renumbered ρ) = a.same b := by
  rw [Bool.eq_iff_iff, same_iff, same_iff]
  constructor
  · exact renumbered_inj hρ ha.formula hb.formula ha.atoms hb.atoms
  · exact congrArg (renumbered ρ)

end Node

/-! ## Meetings -/

def Mismatch.renumbered (π ρ : Int → Int) (m : Mismatch) : Mismatch :=
  ⟨m.pattern.renumbered π, m.found.renumbered ρ, m.reason⟩

def Meeting.renumbered (π ρ : Int → Int) : Meeting → Meeting
  | site i found => site (π i) (found.renumbered ρ)
  | clash mismatch => clash (mismatch.renumbered π ρ)
  | improper pattern => improper (pattern.renumbered π)

/-- A walk through renumbered trees ends at the same places. -/
theorem meetingsFrom_renumbered (π ρ : Int → Int) (first second : β → β) (here : β)
    (lhs expr : Node) :
    meetingsFrom first second here (lhs.renumbered π) (expr.renumbered ρ) =
      (meetingsFrom first second here lhs expr).map fun p => (p.1, p.2.renumbered π ρ) := by
  fun_induction meetingsFrom first second here lhs expr with
  | case1 here i e => rfl
  | case2 here p e ih | case3 here p e ih => exact ih
  | case4 here p e hneg =>
    cases e with
    | neg x => exact absurd rfl (hneg x)
    | _ => rfl
  | case5 here p e hgroup =>
    cases e with
    | group x => exact absurd rfl (hgroup x)
    | _ => rfl
  | case6 here pl op pr el er ihl ihr =>
    simp only [Node.renumbered, Node.subst, meetingsFrom, if_true, List.map_append] at ihl ihr ⊢
    rw [ihl, ihr]
  | case7 here pl op pr el op' er hop =>
    simp only [Node.renumbered, Node.subst, meetingsFrom, if_neg hop]
    rfl
  | case8 here pl op pr e hbinary =>
    cases e with
    | binary l op' r => exact absurd rfl (hbinary l op' r)
    | _ => rfl
  | case9 here e p hatom hneg hgroup hbinary =>
    cases p with
    | atom i => exact absurd rfl (hatom i)
    | neg x => exact absurd rfl (hneg x)
    | group x => exact absurd rfl (hgroup x)
    | binary l op r => exact absurd rfl (hbinary l op r)
    | _ => rfl

theorem meetings_renumbered (π ρ : Int → Int) (lhs expr : Node) :
    meetings (lhs.renumbered π) (expr.renumbered ρ) =
      (meetings lhs expr).map (Meeting.renumbered π ρ) := by
  rw [meetings, meetings, meetingsFrom_renumbered, List.map_map, List.map_map]
  rfl

/-- The atoms that a walk meets are atoms of the left-hand side. -/
theorem mem_atoms_of_site {first second : β → β} {here : β} {lhs expr : Node} {p : β × Meeting}
    (hp : p ∈ meetingsFrom first second here lhs expr) {i : Int} {n : Node}
    (hsite : p.2 = .site i n) : i ∈ lhs.atoms := by
  fun_induction meetingsFrom first second here lhs expr with
  | case1 =>
    cases List.mem_singleton.1 hp
    cases hsite
    exact List.mem_singleton_self _
  | case2 here q e ih => exact ih hp
  | case3 here q e ih => exact ih hp
  | case6 _ _ _ _ _ _ ihl ihr =>
    rcases List.mem_append.1 hp with hp | hp
    · exact List.mem_append_left _ (ihl hp)
    · exact List.mem_append_right _ (ihr hp)
  | case4 | case5 | case7 | case8 | case9 =>
    cases List.mem_singleton.1 hp
    cases hsite

/-! ## Matching -/

namespace Match

/-- Two states of matching that are the same but for the numbers of atoms. -/
structure Renumbers (π ρ : Int → Int) (atoms : List Int) (m m' : Match) : Prop where
  bindings : ∀ i ∈ atoms, m'.bindings.get? (π i) = (m.bindings.get? i).map (Node.renumbered ρ)
  mismatches : m'.mismatches = m.mismatches.map (Mismatch.renumbered π ρ)

variable {π ρ : Int → Int} {atoms : List Int} {strict : Bool} {expr : Node} {m m' : Match}

theorem renumbers_empty : Renumbers π ρ atoms empty empty := ⟨fun _ _ => rfl, rfl⟩

theorem Renumbers.ok (h : Renumbers π ρ atoms m m') : m'.ok = m.ok := by
  rw [Match.ok, Match.ok, h.mismatches, List.isEmpty_map]

theorem Renumbers.record (h : Renumbers π ρ atoms m m') (mismatch : Mismatch) :
    Renumbers π ρ atoms (m.record mismatch) (m'.record (mismatch.renumbered π ρ)) := by
  refine ⟨h.bindings, ?_⟩
  rw [Match.record, Match.record, List.map_append, h.mismatches]
  rfl

theorem Renumbers.insert (h : Renumbers π ρ atoms m m') (hπ : DistinctOn π atoms) {i : Int}
    (hi : i ∈ atoms) (found : Node) :
    Renumbers π ρ atoms { m with bindings := m.bindings.insert i found }
      { m' with bindings := m'.bindings.insert (π i) (found.renumbered ρ) } := by
  refine ⟨fun j hj => ?_, h.mismatches⟩
  by_cases hij : j = i
  · subst hij
    simp only [OrderedMap.get?_insert_self, Option.map_some]
  · have hne : π j ≠ π i := fun heq => hij (hπ j hj i hi heq)
    simp only [OrderedMap.get?_insert_of_ne _ hij, OrderedMap.get?_insert_of_ne _ hne, h.bindings j hj]

/-- One meeting. -/
theorem Renumbers.meet (h : Renumbers π ρ atoms m m') (hπ : DistinctOn π atoms)
    (hρ : DistinctOn ρ expr.atoms) (hover : Over expr m) {e : Meeting} {next : Match}
    (hsite : ∀ i n, e = .site i n → i ∈ atoms ∧ expr.Over n) (hmeet : m.meet strict e = .ok next) :
    ∃ next', m'.meet strict (e.renumbered π ρ) = .ok next' ∧ Renumbers π ρ atoms next next' := by
  cases e with
  | clash mismatch =>
    cases hmeet
    exact ⟨_, rfl, h.record mismatch⟩
  | improper => cases hmeet
  | site i found =>
    obtain ⟨hi, hfound⟩ := hsite i found rfl
    have hbinding := h.bindings i hi
    simp only [Meeting.renumbered, Match.meet] at hmeet ⊢
    cases hget : m.bindings.get? i with
    | none =>
      rw [hget] at hmeet hbinding
      cases hmeet
      rw [hbinding]
      exact ⟨_, rfl, h.insert hπ hi found⟩
    | some bound =>
      rw [hget] at hmeet hbinding
      rw [hbinding]
      simp only [Option.map_some, Node.same_renumbered hρ (hover.bound hget) hfound]
      dsimp only at hmeet
      split at hmeet
      · next hdiffers =>
        cases hmeet
        rw [if_pos hdiffers]
        exact ⟨_, rfl, h.record ⟨.atom i, found, .inconsistent⟩⟩
      · next hsame =>
        cases hmeet
        rw [if_neg hsame]
        exact ⟨_, rfl, h⟩

/-- Matching goes the same way. -/
theorem Renumbers.follow (h : Renumbers π ρ atoms m m') (hπ : DistinctOn π atoms)
    (hρ : DistinctOn ρ expr.atoms) (hover : Over expr m) {ends : List Meeting} {last : Match}
    (hsites : ∀ e ∈ ends, ∀ i n, e = .site i n → i ∈ atoms)
    (hends : ∀ e ∈ ends, ∀ n, e.found? = some n → expr.Over n)
    (hfollow : follow strict m ends = .ok last) :
    ∃ last', Match.follow strict m' (ends.map (Meeting.renumbered π ρ)) = .ok last' ∧
      Renumbers π ρ atoms last last' := by
  induction ends generalizing m m' with
  | nil =>
    cases hfollow
    exact ⟨m', rfl, h⟩
  | cons e ends ih =>
    rw [follow_cons] at hfollow
    obtain ⟨next, hmeet, hrest⟩ := bind_eq_ok hfollow
    have hfound := hends e List.mem_cons_self
    obtain ⟨next', hmeet', hnext⟩ := h.meet hπ hρ hover (fun i n hsite =>
      ⟨hsites e List.mem_cons_self i n hsite, hfound n (hsite ▸ rfl)⟩) hmeet
    rw [List.map_cons, follow_cons, hmeet']
    exact ih hnext (meet_over hover hfound hmeet)
      (fun e' he' => hsites e' (List.mem_cons_of_mem _ he'))
      (fun e' he' => hends e' (List.mem_cons_of_mem _ he')) hrest

/-- Matching renumbered trees comes to the same. -/
theorem find_renumbered {lhs : Node} {found : Match} (hlhs : ∀ i ∈ lhs.atoms, i ∈ atoms)
    (hexpr : expr.IsFormula) (hπ : DistinctOn π atoms) (hρ : DistinctOn ρ expr.atoms)
    (hfind : find strict lhs expr = .ok found) :
    ∃ found', find strict (lhs.renumbered π) (expr.renumbered ρ) = .ok found' ∧
      Renumbers π ρ atoms found found' := by
  rw [find, meetings_renumbered]
  refine renumbers_empty.follow hπ hρ (over_empty expr) ?_ ?_ hfind
  · intro e he i n hsite
    obtain ⟨p, hp, rfl⟩ := List.mem_map.1 he
    exact hlhs i (mem_atoms_of_site hp hsite)
  · intro e he n hn
    obtain ⟨p, hp, rfl⟩ := List.mem_map.1 he
    exact meetingsFrom_over hexpr hp hn

end Match

/-! ## Steps -/

def RewriteStatus.renumbered (ρ : Int → Int) : RewriteStatus → RewriteStatus
  | ok result => ok (result.renumbered ρ)
  | mismatch => mismatch
  | unbound => unbound

namespace Rewrite

def renumbered (π ρ : Int → Int) (outcome : Rewrite) : Rewrite :=
  ⟨outcome.status.renumbered ρ, outcome.mismatches.map (Mismatch.renumbered π ρ)⟩

variable {π ρ : Int → Int} {atoms : List Int} {strict : Bool} {lhs rhs expr : Node}

theorem isBound_renumbered {m m' : Match} (h : Match.Renumbers π ρ atoms m m')
    (hrhs : ∀ i ∈ rhs.atoms, i ∈ atoms) :
    (rhs.renumbered π).isBound m'.bindings = rhs.isBound m.bindings := by
  rw [Bool.eq_iff_iff, Node.isBound, Node.isBound, Node.atoms_renumbered, List.all_map,
    List.all_eq_true, List.all_eq_true]
  refine forall₂_congr fun i hi => ?_
  simp [h.bindings i (hrhs i hi)]

theorem statusAfter_renumbered {m m' : Match} (h : Match.Renumbers π ρ atoms m m')
    (hrhs : ∀ i ∈ rhs.atoms, i ∈ atoms) :
    statusAfter strict m' (rhs.renumbered π) = (statusAfter strict m rhs).renumbered ρ := by
  rw [statusAfter, statusAfter, h.ok, isBound_renumbered h hrhs]
  split
  · rfl
  · split
    · next hbound =>
      refine congrArg RewriteStatus.ok ?_
      rw [Node.renumbered, Node.renumbered, Node.subst_subst, Node.subst_subst]
      refine Node.subst_congr fun i hi => ?_
      obtain ⟨n, hn⟩ := Node.isBound_iff.1 hbound i hi
      have hn' := h.bindings i (hrhs i hi)
      rw [hn, Option.map_some] at hn'
      rw [Node.subst, Bindings.toSubst_of_get? hn', Bindings.toSubst_of_get? hn]
    · rfl

/-- **A step by a renumbered rule on a renumbered expression comes to the same.** -/
theorem step_renumbered (strict : Bool) (hlhs : lhs.IsFormula) (hrhs : rhs.IsFormula) (hexpr : expr.IsFormula)
    (hπ : DistinctOn π (lhs.atoms ++ rhs.atoms)) (hρ : DistinctOn ρ expr.atoms) :
    ∃ outcome, step strict lhs rhs expr = .ok outcome ∧ Over expr outcome ∧
      step strict (lhs.renumbered π) (rhs.renumbered π) (expr.renumbered ρ) =
        .ok (outcome.renumbered π ρ) := by
  obtain ⟨found, hfind, hstep⟩ := step_eq strict hlhs hrhs expr
  obtain ⟨outcome, hstep', hover⟩ := step_over strict hlhs hrhs hexpr
  obtain rfl := Except.ok.inj (hstep.symm.trans hstep')
  obtain ⟨found', hfind', hfound⟩ :=
    Match.find_renumbered (fun i hi => List.mem_append_left _ hi) hexpr hπ hρ hfind
  refine ⟨_, hstep, hover, ?_⟩
  rw [step_of_find hfind' (hrhs.renumbered π), hfound.mismatches,
    statusAfter_renumbered hfound fun i hi => List.mem_append_right _ hi]
  rfl

end Rewrite

/-! ## Chains -/

/-- What a note on a mismatch is made of. -/
def Mismatch.shown (m : Mismatch) : Node × MismatchReason := (m.found, m.reason)

namespace Rewrite

variable {π ρ : Int → Int} {strict : Bool} {lhs rhs expr : Node}

/-- What is shown of the second outcome is what is shown of the first, with other numbers. -/
structure ShownAs (ρ : Int → Int) (outcome outcome' : Rewrite) : Prop where
  status : outcome'.status = outcome.status.renumbered ρ
  mismatches : outcome'.mismatches.map Mismatch.shown =
    outcome.mismatches.map fun m => (m.found.renumbered ρ, m.reason)

theorem ShownAs.refl (outcome : Rewrite) : ShownAs id outcome outcome := by
  obtain ⟨status, mismatches⟩ := outcome
  refine ⟨?_, ?_⟩
  · cases status with
    | ok result => exact congrArg RewriteStatus.ok result.renumbered_id.symm
    | mismatch | unbound => rfl
  · simp only [Node.renumbered_id]
    rfl

theorem shownAs_renumbered (π ρ : Int → Int) (outcome : Rewrite) :
    ShownAs ρ outcome (outcome.renumbered π ρ) := by
  refine ⟨rfl, ?_⟩
  rw [renumbered, List.map_map]
  rfl

/-- More mismatches before. -/
theorem ShownAs.after {outcome outcome' : Rewrite} (h : ShownAs id outcome outcome')
    (before : List Mismatch) :
    ShownAs id { outcome with mismatches := before ++ outcome.mismatches }
      { outcome' with mismatches := before ++ outcome'.mismatches } := by
  refine ⟨h.status, ?_⟩
  have hbefore : before.map Mismatch.shown =
      before.map fun m => (m.found.renumbered id, m.reason) := (ShownAs.refl ⟨.mismatch, before⟩).2
  rw [List.map_append, List.map_append, h.mismatches, hbefore]

variable {symbols symbols' : Symbols} {rules : RuleStore}

/-- **The last rule of a chain may have other numbers.** -/
theorem chain_renumbered {target rule rule' : Node} (hhead : (head target).IsFormula)
    (happlied : ∀ r ∈ applied target, r.IsFormulaRule)
    (hrule : resolve symbols rules rule = .ok (.equivalence lhs rhs))
    (hrule' : resolve symbols' rules rule' =
      .ok (.equivalence (lhs.renumbered π) (rhs.renumbered π)))
    (hlhs : lhs.IsFormula) (hrhs : rhs.IsFormula) (hπ : DistinctOn π (lhs.atoms ++ rhs.atoms)) :
    ∃ outcome outcome', chain symbols rules strict target rule = .ok outcome ∧
      chain symbols' rules strict target rule' = .ok outcome' ∧
      Over (head target) outcome ∧ ShownAs id outcome outcome' := by
  have hcarry : carry symbols rules strict (head target) (applied target) =
      carry symbols' rules strict (head target) (applied target) := by
    refine carry_congr fun r hr => ?_
    rw [resolve_formulaRule symbols rules (happlied r hr),
      resolve_formulaRule symbols' rules (happlied r hr)]
  obtain ⟨before, hbefore, hover⟩ : ∃ before,
      carry symbols rules strict (head target) (applied target) = .ok before ∧
        Over (head target) before := carry_over hhead happlied
  rw [chain_eq, chain_eq, ← hcarry, hbefore]
  cases hstatus : before.status with
  | mismatch | unbound =>
    have hstuck : ∀ result, before.status ≠ .ok result := by simp [hstatus]
    exact ⟨before, before, followedBy_stuck hstuck _, followedBy_stuck hstuck _, hover, .refl _⟩
  | ok result =>
    have hresult := hover.result hstatus
    have hid : DistinctOn id result.atoms := fun i _ j _ h => h
    obtain ⟨after, hstep, hafter, hstep'⟩ :=
      step_renumbered strict hlhs hrhs hresult.formula hπ hid
    rw [Node.renumbered_id] at hstep'
    have hby := (byRule_eq hrule result).trans hstep
    have hby' := (byRule_eq hrule' result).trans hstep'
    refine ⟨{ after with mismatches := before.mismatches ++ after.mismatches },
      { after.renumbered π id with
        mismatches := before.mismatches ++ (after.renumbered π id).mismatches },
      ?_, ?_, ⟨fun ht => hresult.trans (hafter.result ht), fun m hm => ?_⟩,
      (shownAs_renumbered π id after).after _⟩
    · simp only [bind, Except.bind, followedBy, hstatus, hby, pure, Except.pure]
    · simp only [bind, Except.bind, followedBy, hstatus, hby', pure, Except.pure]
    · rcases List.mem_append.1 hm with hm | hm
      · exact hover.found m hm
      · exact hresult.trans (hafter.found m hm)

end Rewrite

end Propositional
