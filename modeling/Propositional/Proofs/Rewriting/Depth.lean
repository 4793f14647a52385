/-
How deep a step goes does not depend on how atoms are numbered. What decides whether
a place lies beyond the bound are levels, marks and which expressions are equal
(`meetingOverruns_renumbered`); none of them changes with the numbers, as long as they
tell apart what was different before. So a step goes beyond the bound with the old
numbers if and only if it does with the new ones (`stepOverrun_renumbered`).
-/
import Propositional.Proofs.Rewriting.Links
import Propositional.Proofs.Rewriting.Renumbering
import Propositional.Rewriting.Depth

namespace Propositional

open Nesting (Bound Limit)

namespace Node

theorem levels_renumbered (ρ : Int → Int) (n : Node) : (n.renumbered ρ).levels = n.levels := by
  induction n with
  | atom i => rfl
  | neg x ih | group x ih => rw [renumbered, subst, levels, levels, ← ih]
  | binary l op r ihl ihr => rw [renumbered, subst, levels, levels, ← ihl, ← ihr]
  | equivalence | ruleName | application | binding | stray => rfl

theorem textDepth_renumbered (ρ : Int → Int) (n : Node) :
    (n.renumbered ρ).textDepth = n.textDepth := by
  induction n with
  | atom i => rfl
  | neg x ih | group x ih => rw [renumbered, subst, textDepth, textDepth, ← ih]
  | binary l op r ihl ihr => rw [renumbered, subst, textDepth, textDepth, ← ihl, ← ihr]
  | equivalence | ruleName | application | binding | stray => rfl

theorem levelsOverrun_renumbered (deepest : Nat) (ρ : Int → Int) (n : Node) :
    (n.renumbered ρ).levelsOverrun deepest = n.levelsOverrun deepest := by
  rw [Bool.eq_iff_iff, levelsOverrun_iff, levelsOverrun_iff, levels_renumbered]

theorem refusesText_renumbered (limit : Limit) (ρ : Int → Int) (n : Node) :
    limit.refusesText (n.renumbered ρ) = limit.refusesText n := by
  cases limit with
  | none => rfl
  | some bound =>
    rw [Bool.eq_iff_iff, Limit.refusesText, Limit.refusesText, textOverruns_iff, textOverruns_iff,
      textDepth_renumbered]

/-- How far two formulas have to be compared does not depend on the numbers. -/
theorem sameWithin_renumbered {ρ : Int → Int} {expr : Node} (hρ : DistinctOn ρ expr.atoms)
    (levels : Nat) {x y : Node} (hx : expr.Over x) (hy : expr.Over y) (mx my : Marks) :
    (x.renumbered ρ).sameWithin levels mx (y.renumbered ρ) my = x.sameWithin levels mx y my := by
  induction levels generalizing x y mx my with
  | zero => rfl
  | succ levels ih =>
    have hsame := same_renumbered hρ hx hy
    simp only [sameWithin]
    split
    · rfl
    · obtain ⟨hxf, hxa⟩ := hx
      obtain ⟨hyf, hya⟩ := hy
      cases hxf with
      | atom i => cases hyf <;> exact congrArg some hsame
      | neg hx' =>
        cases hyf with
        | neg hy' => exact ih ⟨hx', hxa⟩ ⟨hy', hya⟩ _ _
        | atom | group | binary => exact congrArg some hsame
      | group hx' =>
        cases hyf with
        | group hy' => exact ih ⟨hx', hxa⟩ ⟨hy', hya⟩ _ _
        | atom | neg | binary => exact congrArg some hsame
      | binary op hl hr =>
        cases hyf with
        | binary op' hl' hr' =>
          have hleft := ih ⟨hl, fun i hi => hxa i (List.mem_append_left _ hi)⟩
            ⟨hl', fun i hi => hya i (List.mem_append_left _ hi)⟩ mx.first my.first
          have hright := ih ⟨hr, fun i hi => hxa i (List.mem_append_right _ hi)⟩
            ⟨hr', fun i hi => hya i (List.mem_append_right _ hi)⟩ mx.second my.second
          simp only [renumbered, subst] at hleft hright ⊢
          rw [hleft, hright]
        | atom | neg | group => exact congrArg some hsame

end Node

namespace Rewrite

variable {π ρ : Int → Int} {atoms : List Int} {strict : Bool} {expr lhs rhs : Node} {bound : Bound}

/-- The ends of a match in renumbered trees are at the same spots. -/
theorem ends_renumbered (marks : Marks) (lhs expr : Node) :
    ends marks (lhs.renumbered π) (expr.renumbered ρ) =
      (ends marks lhs expr).map fun p => (p.1, p.2.renumbered π ρ) :=
  meetingsFrom_renumbered ..

theorem heldMarks_renumbered (hπ : DistinctOn π atoms) {met : List (Spot × Meeting)}
    (hsites : ∀ p ∈ met, ∀ i n, p.2 = .site i n → i ∈ atoms) {i : Int} (hi : i ∈ atoms) :
    heldMarks (met.map fun p => (p.1, p.2.renumbered π ρ)) (π i) = heldMarks met i := by
  induction met with
  | nil => rfl
  | cons p met ih =>
    have hrest := ih fun p hp => hsites p (List.mem_cons_of_mem _ hp)
    obtain ⟨spot, meeting⟩ := p
    rw [heldMarks, heldMarks] at hrest
    rw [heldMarks, heldMarks, List.map_cons, List.findSome?_cons, List.findSome?_cons, hrest]
    cases meeting with
    | clash | improper => rfl
    | site j found =>
      have hj : j ∈ atoms := hsites _ List.mem_cons_self j found rfl
      by_cases hji : j = i
      · simp [Meeting.renumbered, hji]
      · have hne : π j ≠ π i := fun heq => hji (hπ j hj i hi heq)
        simp [Meeting.renumbered, hji, hne]

/-- Whether a meeting goes beyond the bound does not depend on the numbers. -/
theorem meetingOverruns_renumbered (hρ : DistinctOn ρ expr.atoms) {held held' : Int → Option Marks}
    (hheld : ∀ i ∈ atoms, held' (π i) = held i) {m m' : Match}
    (hm : Match.Renumbers π ρ atoms m m') (hover : Match.Over expr m) (spot : Spot) {e : Meeting}
    (hsite : ∀ i n, e = .site i n → i ∈ atoms ∧ expr.Over n) :
    meetingOverruns bound strict held' m'.bindings spot (e.renumbered π ρ) =
      meetingOverruns bound strict held m.bindings spot e := by
  cases e with
  | clash mismatch =>
    simp only [meetingOverruns, Meeting.renumbered, Mismatch.renumbered, logOverruns,
      Node.levelsOverrun_renumbered]
  | improper => rfl
  | site i found =>
    obtain ⟨hi, hfound⟩ := hsite i found rfl
    simp only [meetingOverruns, Meeting.renumbered, hm.bindings i hi, hheld i hi]
    cases hget : m.bindings.get? i with
    | none => rfl
    | some first =>
      have hsame := Node.sameWithin_renumbered hρ ((bound.deepest - spot.level) / 3)
        (hover.bound hget) hfound
      cases held i with
      | none => rfl
      | some marks =>
        simp only [Option.map_some, hsame, logOverruns, Node.levelsOverrun_renumbered]

theorem matchOverrun_renumbered (hπ : DistinctOn π atoms) (hρ : DistinctOn ρ expr.atoms)
    {held held' : Int → Option Marks} (hheld : ∀ i ∈ atoms, held' (π i) = held i)
    {met : List (Spot × Meeting)} (hsites : ∀ p ∈ met, ∀ i n, p.2 = .site i n → i ∈ atoms)
    (hends : ∀ p ∈ met, ∀ n, p.2.found? = some n → expr.Over n) {m m' : Match}
    (hm : Match.Renumbers π ρ atoms m m') (hover : Match.Over expr m) :
    (matchOverrun bound strict held' m' (met.map fun p => (p.1, p.2.renumbered π ρ))).isSome =
      (matchOverrun bound strict held m met).isSome := by
  induction met generalizing m m' with
  | nil => rfl
  | cons p met ih =>
    obtain ⟨spot, e⟩ := p
    have hfound : ∀ n, e.found? = some n → expr.Over n := hends _ List.mem_cons_self
    have hsite : ∀ i n, e = .site i n → i ∈ atoms ∧ expr.Over n := fun i n he =>
      ⟨hsites _ List.mem_cons_self i n he, hfound n (he ▸ rfl)⟩
    rw [List.map_cons, matchOverrun, matchOverrun,
      meetingOverruns_renumbered hρ hheld hm hover spot hsite]
    split
    · rfl
    · cases hmeet : m.meet strict e with
      | ok next =>
        obtain ⟨next', hmeet', hnext⟩ := hm.meet hπ hρ hover hsite hmeet
        rw [hmeet']
        exact ih (fun p hp => hsites p (List.mem_cons_of_mem _ hp))
          (fun p hp => hends p (List.mem_cons_of_mem _ hp)) hnext
          (Match.meet_over hover hfound hmeet)
      | error fault =>
        cases e with
        | improper pattern => rfl
        | clash => cases hmeet
        | site =>
          rw [Match.meet] at hmeet
          split at hmeet
          · cases hmeet
          · split at hmeet <;> cases hmeet

theorem atomLevels_renumbered (level : Nat) (n : Node) :
    atomLevels level (n.renumbered π) = (atomLevels level n).map fun p => (p.1, π p.2) := by
  induction n generalizing level with
  | atom i => rfl
  | neg x ih | group x ih => exact ih _
  | binary l op r ihl ihr =>
    rw [Node.renumbered, Node.subst, atomLevels, atomLevels, List.map_append, ihl, ihr]
  | equivalence | ruleName | application | binding | stray => rfl

theorem mem_atomLevels {level : Nat} {n : Node} {p : Nat × Int} (h : p ∈ atomLevels level n) :
    p.2 ∈ n.atoms := by
  induction n generalizing level with
  | atom i =>
    cases List.mem_singleton.1 h
    exact List.mem_singleton_self _
  | neg x ih | group x ih => exact ih h
  | binary l op r ihl ihr =>
    rcases List.mem_append.1 h with h | h
    · exact List.mem_append_left _ (ihl h)
    · exact List.mem_append_right _ (ihr h)
  | equivalence | ruleName | application | binding | stray => cases h

theorem substitutionOverruns_renumbered {m m' : Match} (hm : Match.Renumbers π ρ atoms m m')
    {places : List (Nat × Int)} (hplaces : ∀ p ∈ places, p.2 ∈ atoms) :
    substitutionOverruns bound m'.bindings (places.map fun p => (p.1, π p.2)) =
      substitutionOverruns bound m.bindings places := by
  induction places with
  | nil => rfl
  | cons p places ih =>
    have hi := hplaces p List.mem_cons_self
    rw [List.map_cons, substitutionOverruns, substitutionOverruns, hm.bindings _ hi,
      Option.isSome_map, ih fun p hp => hplaces p (List.mem_cons_of_mem _ hp)]

/-- **Whether a step goes beyond the bound does not depend on the numbers of atoms.** -/
theorem stepOverrun_renumbered (marks : Marks) (hlhs : lhs.IsFormula) (hexpr : expr.IsFormula)
    (hπ : DistinctOn π (lhs.atoms ++ rhs.atoms)) (hρ : DistinctOn ρ expr.atoms) :
    (stepOverrun bound strict marks (lhs.renumbered π) (rhs.renumbered π)
        (expr.renumbered ρ)).isSome = (stepOverrun bound strict marks lhs rhs expr).isSome := by
  have hsites : ∀ p ∈ ends marks lhs expr, ∀ i n, p.2 = .site i n → i ∈ lhs.atoms ++ rhs.atoms :=
    fun p hp i n hsite => List.mem_append_left _ (mem_atoms_of_site hp hsite)
  have hheld : ∀ i ∈ lhs.atoms ++ rhs.atoms,
      heldMarks ((ends marks lhs expr).map fun p => (p.1, p.2.renumbered π ρ)) (π i) =
        heldMarks (ends marks lhs expr) i :=
    fun i hi => heldMarks_renumbered hπ hsites hi
  have hmatch : (matchOverrun bound strict _ .empty
      ((ends marks lhs expr).map fun p => (p.1, p.2.renumbered π ρ))).isSome =
        (matchOverrun bound strict _ .empty (ends marks lhs expr)).isSome :=
    matchOverrun_renumbered hπ hρ hheld hsites
      (fun p hp n hn => Match.meetingsFrom_over hexpr hp hn) Match.renumbers_empty
      (Match.over_empty expr)
  obtain ⟨found, hfind⟩ := Match.find_ok strict hlhs expr
  obtain ⟨found', hfind', hfound⟩ :=
    Match.find_renumbered (fun i hi => List.mem_append_left rhs.atoms hi) hexpr hπ hρ hfind
  have hsubst : substitutionOverruns bound found'.bindings
      ((atomLevels 1 rhs).map fun p => (p.1, π p.2)) =
        substitutionOverruns bound found.bindings (atomLevels 1 rhs) :=
    substitutionOverruns_renumbered hfound fun p hp =>
      List.mem_append_right _ (mem_atomLevels hp)
  simp only [stepOverrun, ends_renumbered, hfind, hfind', hfound.ok, atomLevels_renumbered, hsubst]
  cases hold : matchOverrun bound strict (heldMarks (ends marks lhs expr)) .empty
      (ends marks lhs expr) with
  | some mismatches =>
    rw [hold, Option.isSome_some, Option.isSome_iff_exists] at hmatch
    obtain ⟨mismatches', hnew⟩ := hmatch
    rw [hnew]
    rfl
  | none =>
    rw [hold, Option.isSome_none, Option.isSome_eq_false_iff, Option.isNone_iff_eq_none] at hmatch
    rw [hmatch]
    dsimp only
    split <;> rfl

/-! ## Chains -/

variable {symbols symbols' : Symbols} {rules : RuleStore}

theorem overrunFrom_one {rule : Node}
    (h : resolve symbols rules rule = .ok (.equivalence lhs rhs)) (marks : Marks) (next : Nat) :
    (overrunFrom bound symbols rules strict expr marks next [rule]).isSome =
      (stepOverrun bound strict marks lhs rhs expr).isSome := by
  rw [overrunFrom, h, List.length_nil, Bound.below_zero]
  dsimp only
  cases stepOverrun bound strict marks lhs rhs expr with
  | some mismatches => rfl
  | none =>
    dsimp only
    split <;> rfl

/-- After the same inline rules, what the rules after them go through decides, if these are
as many. -/
theorem overrunFrom_append {links last last' : List Node} (hexpr : expr.IsFormula)
    (hlinks : ∀ r ∈ links, r.IsFormulaRule) (hlength : last.length = last'.length)
    (hlast : ∀ result marks next, expr.Over result →
      (overrunFrom bound symbols rules strict result marks next last).isSome =
        (overrunFrom bound symbols' rules strict result marks next last').isSome)
    (marks : Marks) (next : Nat) :
    (overrunFrom bound symbols rules strict expr marks next (links ++ last)).isSome =
      (overrunFrom bound symbols' rules strict expr marks next (links ++ last')).isSome := by
  induction links generalizing expr marks next with
  | nil => exact hlast expr marks next (.refl hexpr)
  | cons rule rest ih =>
    have hrule := hlinks rule List.mem_cons_self
    rw [List.cons_append, List.cons_append, overrunFrom, overrunFrom,
      resolve_formulaRule symbols rules hrule, resolve_formulaRule symbols' rules hrule,
      List.length_append, List.length_append, hlength]
    cases rule with
    | equivalence lhs rhs =>
      dsimp only
      cases stepOverrun (bound.below (rest.length + last'.length)) strict marks lhs rhs expr with
      | some mismatches => rfl
      | none =>
        obtain ⟨⟨status, found⟩, hstep, hover⟩ := step_over strict hrule.1 hrule.2 hexpr
        rw [hstep]
        cases status with
        | mismatch | unbound => rfl
        | ok result =>
          have hresult := hover.result rfl
          simp only [Option.isSome_map]
          exact ih hresult.formula (fun r hr => hlinks r (List.mem_cons_of_mem _ hr))
            (fun result' marks next h => hlast result' marks next (hresult.trans h)) _ _
    | _ => cases hrule

/-- **A rule by name goes beyond the bound where the same rule does with other numbers.** -/
theorem overrun_renumbered {target rule rule' : Node}
    (hhead : (head target).IsFormula) (happlied : ∀ r ∈ applied target, r.IsFormulaRule)
    (hrule : resolve symbols rules rule = .ok (.equivalence lhs rhs))
    (hrule' : resolve symbols' rules rule' =
      .ok (.equivalence (lhs.renumbered π) (rhs.renumbered π)))
    (hlhs : lhs.IsFormula) (hπ : DistinctOn π (lhs.atoms ++ rhs.atoms)) :
    (overrun bound symbols' rules strict target rule').isSome =
      (overrun bound symbols rules strict target rule).isSome := by
  have hlast : ∀ result marks next, (head target).Over result →
      (overrunFrom bound symbols' rules strict result marks next [rule']).isSome =
        (overrunFrom bound symbols rules strict result marks next [rule]).isSome := by
    intro result marks next hresult
    have hid : DistinctOn id result.atoms := fun i _ j _ h => h
    rw [overrunFrom_one hrule', overrunFrom_one hrule,
      ← stepOverrun_renumbered marks hlhs hresult.formula hπ hid, Node.renumbered_id]
  have hlength : [rule'].length = [rule].length := rfl
  simp only [overrun, links_eq, List.length_append, List.length_singleton]
  split
  · rfl
  · exact overrunFrom_append hhead happlied hlength hlast _ _

end Rewrite

end Propositional
