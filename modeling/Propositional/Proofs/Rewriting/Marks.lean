/-
What marks are good for. Marks of one formula say at most that equal parts are equal
(`Refines`), whether all parts have been marked afresh or some have been taken over from a
step before (`fresh_labels`). An answer that comparing gives within so many levels
is right then, and the same when more is known to be one (`sameWithin_refines`). So a
step that stays within the bound on a formula marked afresh stays within the bound on
the same formula as the result of a step (`stepOverrun_refines`).
-/
import Propositional.Proofs.Rewriting.Depth
import Propositional.Proofs.Rewriting.Places

namespace Propositional

open Nesting (Bound)

namespace Marks

/-- A property of all parts of a formula, each with its marks in two ways to mark the whole. -/
inductive AllParts (P : Marks → Marks → Node → Prop) : Marks → Marks → Node → Prop
  | atom {m m' : Marks} {i : Int} : P m m' (.atom i) → AllParts P m m' (.atom i)
  | neg {m m' : Marks} {x : Node} : P m m' (.neg x) → AllParts P m.first m'.first x →
      AllParts P m m' (.neg x)
  | group {m m' : Marks} {x : Node} : P m m' (.group x) → AllParts P m.first m'.first x →
      AllParts P m m' (.group x)
  | binary {m m' : Marks} {l r : Node} {op : Connective} : P m m' (.binary l op r) →
      AllParts P m.first m'.first l → AllParts P m.second m'.second r →
      AllParts P m m' (.binary l op r)

variable {P Q : Marks → Marks → Node → Prop} {m m' : Marks} {n : Node} {α : Type}

theorem AllParts.here (h : AllParts P m m' n) : P m m' n := by
  cases h <;> assumption

theorem AllParts.mono (h : AllParts P m m' n) (hPQ : ∀ m m' n, P m m' n → Q m m' n) :
    AllParts Q m m' n := by
  induction h with
  | atom h => exact .atom (hPQ _ _ _ h)
  | neg h _ ih => exact .neg (hPQ _ _ _ h) ih
  | group h _ ih => exact .group (hPQ _ _ _ h) ih
  | binary h _ _ ihl ihr => exact .binary (hPQ _ _ _ h) ihl ihr

theorem AllParts.with_any (h : AllParts P m m' n) (hP : ∀ m m' m'' n, P m m' n → P m m'' n)
    (m'' : Marks) : AllParts P m m'' n := by
  induction h generalizing m'' with
  | atom h => exact .atom (hP _ _ _ _ h)
  | neg h _ ih => exact .neg (hP _ _ _ _ h) (ih _)
  | group h _ ih => exact .group (hP _ _ _ _ h) (ih _)
  | binary h _ _ ihl ihr => exact .binary (hP _ _ _ _ h) (ihl _) (ihr _)

/-- The marks have labels below the bound, and those are the labels of the parts. -/
abbrev Labels (bound : Nat) (V : Nat → α) (label : Marks → Node → α) : Marks → Marks → Node → Prop :=
  AllParts fun m m' n => m.mark < bound ∧ V m.mark = label m' n

theorem Labels.mono {bound bound' : Nat} {V V' : Nat → α} {label : Marks → Node → α}
    (h : Labels bound V label m m' n) (hbound : bound ≤ bound')
    (hV : ∀ k < bound, V' k = V k) : Labels bound' V' label m m' n :=
  AllParts.mono h fun _ _ _ h => ⟨Nat.lt_of_lt_of_le h.1 hbound, (hV _ h.1).trans h.2⟩

theorem fresh_neg (held : Int → Option Marks) (next : Nat) (x : Node) :
    fresh held next (.neg x) = (one next (fresh held (next + 1) x).1, (fresh held (next + 1) x).2) :=
  rfl

theorem fresh_group (held : Int → Option Marks) (next : Nat) (x : Node) :
    fresh held next (.group x) =
      (one next (fresh held (next + 1) x).1, (fresh held (next + 1) x).2) :=
  rfl

theorem fresh_binary (held : Int → Option Marks) (next : Nat) (l r : Node) (op : Connective) :
    fresh held next (.binary l op r) =
      (two next (fresh held (next + 1) l).1 (fresh held (fresh held (next + 1) l).2 r).1,
        (fresh held (fresh held (next + 1) l).2 r).2) :=
  rfl

theorem fresh_renumbered (next : Nat) (ρ : Int → Int) (n : Node) :
    fresh (fun _ => none) next (n.renumbered ρ) = fresh (fun _ => none) next n := by
  induction n generalizing next with
  | atom i => rfl
  | neg x ih | group x ih => rw [Node.renumbered, Node.subst, fresh, fresh, ih]
  | binary l op r ihl ihr => rw [Node.renumbered, Node.subst, fresh_binary, fresh_binary, ihl, ihr]
  | equivalence | ruleName | application | binding | stray => rfl

/-- Labels with one more. -/
def labelled (V : Nat → α) (mark : Nat) (label : α) : Nat → α :=
  fun k => if k = mark then label else V k

theorem labelled_self (V : Nat → α) (mark : Nat) (label : α) : labelled V mark label mark = label :=
  if_pos rfl

theorem labelled_of_lt (V : Nat → α) {k mark : Nat} (h : k < mark) (label : α) :
    labelled V mark label k = V k :=
  if_neg (by omega)

theorem Labels.newer {next : Nat} {V : Nat → α} {label : Marks → Node → α}
    (h : Labels next V label m m' n) (new : α) :
    Labels (next + 1) (labelled V next new) label m m' n :=
  h.mono (Nat.le_succ next) fun _ hk => labelled_of_lt V hk new

/-- **Marks can have the labels of the parts that they mark**, if those of the expressions
put for atoms have. By induction on the formula: labels stay, and new marks get new ones. -/
theorem fresh_labels (label : Marks → Node → α) (V : Nat → α) (held : Int → Option Marks)
    (σ : Int → Node) (next : Nat) (hn : n.IsFormula)
    (hheld : ∀ i ∈ n.atoms, ∀ marks, held i = some marks →
      ∀ m', Labels next V label marks m' (σ i))
    (hfree : ∀ i ∈ n.atoms, held i = none → ∃ j, σ i = .atom j) (m' : Marks) :
    ∃ V', (∀ k < next, V' k = V k) ∧ next ≤ (fresh held next n).2 ∧
      Labels (fresh held next n).2 V' label (fresh held next n).1 m' (n.subst σ) := by
  induction hn generalizing V next m' with
  | atom i =>
    have hi : i ∈ (Node.atom i).atoms := List.mem_singleton_self i
    rw [fresh]
    cases hmarks : held i with
    | some marks => exact ⟨V, fun _ _ => rfl, Nat.le_refl _, hheld i hi marks hmarks m'⟩
    | none =>
      obtain ⟨j, hj⟩ := hfree i hi hmarks
      refine ⟨labelled V next (label m' (σ i)), fun k hk => labelled_of_lt V hk _, Nat.le_succ _, ?_⟩
      rw [Node.subst, hj]
      exact .atom ⟨Nat.lt_succ_self _, hj ▸ labelled_self V next _⟩
  | @neg x _ ih =>
    have hnewer := fun i hi marks hmarks any =>
      (hheld i hi marks hmarks any).newer (label m' (.neg (x.subst σ)))
    obtain ⟨V', hV', hnext, hx⟩ := ih _ _ hnewer hfree m'.first
    rw [fresh_neg]
    refine ⟨V', fun k hk => ?_, by omega, .neg ⟨?_, ?_⟩ hx⟩
    · rw [hV' k (by omega), labelled_of_lt V hk]
    · exact hnext
    · rw [mark, hV' next (by omega), labelled_self]
  | @group x _ ih =>
    have hnewer := fun i hi marks hmarks any =>
      (hheld i hi marks hmarks any).newer (label m' (.group (x.subst σ)))
    obtain ⟨V', hV', hnext, hx⟩ := ih _ _ hnewer hfree m'.first
    rw [fresh_group]
    refine ⟨V', fun k hk => ?_, by omega, .group ⟨?_, ?_⟩ hx⟩
    · rw [hV' k (by omega), labelled_of_lt V hk]
    · exact hnext
    · rw [mark, hV' next (by omega), labelled_self]
  | @binary l r op _ _ ihl ihr =>
    have hnewer := fun i hi marks hmarks any =>
      (hheld i hi marks hmarks any).newer (label m' (.binary (l.subst σ) op (r.subst σ)))
    obtain ⟨V₁, hV₁, hleft, hl⟩ := ihl _ _
      (fun i hi => hnewer i (List.mem_append_left _ hi))
      (fun i hi => hfree i (List.mem_append_left _ hi)) m'.first
    have hlater : ∀ i ∈ r.atoms, ∀ marks, held i = some marks →
        ∀ any, Labels (fresh held (next + 1) l).2 V₁ label marks any (σ i) :=
      fun i hi marks hmarks any =>
        (hnewer i (List.mem_append_right _ hi) marks hmarks any).mono hleft hV₁
    obtain ⟨V₂, hV₂, hright, hr⟩ := ihr _ _ hlater
      (fun i hi => hfree i (List.mem_append_right _ hi)) m'.second
    rw [fresh_binary]
    refine ⟨V₂, fun k hk => ?_, by omega, .binary ⟨?_, ?_⟩ (hl.mono hright hV₂) hr⟩
    · rw [hV₂ k (by omega), hV₁ k (by omega), labelled_of_lt V hk]
    · rw [mark]
      omega
    · rw [mark, hV₂ next (by omega), hV₁ next (by omega), labelled_self]

/-- Marks that are all new can have any labels. -/
theorem fresh_labels_new (label : Marks → Node → α) (V : Nat → α) (next : Nat) (hn : n.IsFormula)
    (m' : Marks) :
    ∃ V', Labels (fresh (fun _ => none) next n).2 V' label (fresh (fun _ => none) next n).1 m' n := by
  have hnone : ∀ i ∈ n.atoms, ∀ marks, (none : Option Marks) = some marks →
      ∀ any, Labels next V label marks any (Node.atom i) := nofun
  obtain ⟨V', -, -, hV'⟩ :=
    fresh_labels label V (fun _ => none) .atom next hn hnone (fun i _ _ => ⟨i, rfl⟩) m'
  rw [Node.subst_atom] at hV'
  exact ⟨V', hV'⟩

/-! ## Marks that tell more parts apart -/

theorem AllParts.with_second {R : Marks → Node → Prop} {m'' : Marks} (h : AllParts P m m' n)
    (h' : AllParts (fun m _ n => R m n) m' m'' n) :
    AllParts (fun m m' n => P m m' n ∧ R m' n) m m' n := by
  induction h generalizing m'' with
  | atom h => exact .atom ⟨h, h'.here⟩
  | neg h _ ih =>
    cases h' with
    | neg h' hx => exact .neg ⟨h, h'⟩ (ih hx)
  | group h _ ih =>
    cases h' with
    | group h' hx => exact .group ⟨h, h'⟩ (ih hx)
  | binary h _ _ ihl ihr =>
    cases h' with
    | binary h' hl hr => exact .binary ⟨h, h'⟩ (ihl hl) (ihr hr)

/-- Parts with the same of the first marks have the same of the second ones, and those with the
same of the second marks are equal. -/
abbrev Refines (f : Nat → Nat) (V : Nat → Node) : Marks → Marks → Node → Prop :=
  AllParts fun m m' n => f m.mark = m'.mark ∧ V m'.mark = n

/-- Marks that are all new tell as many parts apart as any others. -/
theorem fresh_refines {bound : Nat} {V : Nat → Node} {m'' : Marks} (hn : n.IsFormula)
    (hm' : Labels bound V (fun _ n => n) m' m'' n) (next : Nat) :
    ∃ f, Refines f V (fresh (fun _ => none) next n).1 m' n := by
  obtain ⟨f, hf⟩ := fresh_labels_new (fun m' _ => m'.mark) (fun _ => 0) next hn m'
  have hV : AllParts (fun m _ n => V m.mark = n) m' m'' n := AllParts.mono hm' fun _ _ _ h => h.2
  exact ⟨f, (AllParts.with_second hf hV).mono fun _ _ _ h => ⟨h.1.2, h.2⟩⟩

theorem ite_answer {p q : Prop} [Decidable p] {rest : Option Bool} {answer : Bool} (hp : p → q)
    (h : rest = some answer ∧ (answer = true ↔ q)) :
    (if p then some true else rest) = some answer ∧ (answer = true ↔ q) := by
  refine ⟨?_, h.2⟩
  split
  · next hyes => rw [h.2.2 (hp hyes)]
  · exact h.1

/-- **Comparing answers right, and alike where more parts are known to be one.** By induction
on the levels: where the second marks decide, the first ones have led to the same answer. -/
theorem sameWithin_refines {f : Nat → Nat} {V : Nat → Node} {levels : Nat} {x y : Node}
    {mx my mx' my' : Marks} (hx : Refines f V mx mx' x) (hy : Refines f V my my' y) {answer : Bool}
    (h : x.sameWithin levels mx y my = some answer) :
    x.sameWithin levels mx' y my' = some answer ∧ (answer = true ↔ x = y) := by
  induction levels generalizing x y mx my mx' my' answer with
  | zero => cases h
  | succ levels ih =>
    have hsame : mx'.mark = my'.mark → x = y := fun hmarks => by
      rw [← hx.here.2, ← hy.here.2, hmarks]
    simp only [Node.sameWithin] at h ⊢
    split at h
    · next hmarks =>
      cases h
      have hmarks' : mx'.mark = my'.mark := by rw [← hx.here.1, ← hy.here.1, hmarks]
      exact ⟨if_pos hmarks', fun _ => hsame hmarks', fun _ => rfl⟩
    · refine ite_answer hsame ?_
      cases hx with
      | atom =>
        cases hy <;> cases h <;> exact ⟨rfl, Node.same_iff⟩
      | neg _ hx =>
        cases hy with
        | neg _ hy =>
          obtain ⟨h', hright⟩ := ih hx hy h
          exact ⟨h', by rw [hright, Node.neg.injEq]⟩
        | atom | group | binary =>
          cases h
          exact ⟨rfl, Node.same_iff⟩
      | group _ hx =>
        cases hy with
        | group _ hy =>
          obtain ⟨h', hright⟩ := ih hx hy h
          exact ⟨h', by rw [hright, Node.group.injEq]⟩
        | atom | neg | binary =>
          cases h
          exact ⟨rfl, Node.same_iff⟩
      | @binary _ _ l r op _ hl hr =>
        cases hy with
        | @binary _ _ l' r' op' _ hl' hr' =>
          rw [Node.binary.injEq]
          dsimp only at h ⊢
          cases hleft : l.sameWithin levels mx.first l' my.first with
          | none =>
            rw [hleft] at h
            cases h
          | some left =>
            obtain ⟨hleft', hlright⟩ := ih hl hl' hleft
            rw [hleft] at h
            rw [hleft']
            cases left with
            | false =>
              cases h
              have hne : l ≠ l' := fun heq => Bool.noConfusion (hlright.2 heq)
              simp [hne]
            | true =>
              dsimp only at h ⊢
              split at h
              · next hop =>
                obtain ⟨hright', hrright⟩ := ih hr hr' h
                rw [if_pos hop, hrright]
                simp [hright', hlright.1 rfl, hop]
              · next hop =>
                cases h
                rw [if_neg hop]
                simp [hop]
        | atom | neg | group =>
          cases h
          exact ⟨rfl, Node.same_iff⟩

end Marks

namespace Rewrite

open Marks

variable {bound : Bound} {strict : Bool} {f : Nat → Nat} {V : Nat → Node}

/-- The ends of a match with their spots under two ways to mark the expression. -/
def pairedEnds (marks marks' : Marks) (lhs expr : Node) : List ((Spot × Spot) × Meeting) :=
  meetingsFrom (Prod.map Spot.first Spot.first) (Prod.map Spot.second Spot.second)
    (⟨1, marks⟩, ⟨1, marks'⟩) lhs expr

/-- The ends with the first, and with the second, of two spots. -/
def firstSpots (met : List ((Spot × Spot) × Meeting)) : List (Spot × Meeting) :=
  met.map fun p => (p.1.1, p.2)

def secondSpots (met : List ((Spot × Spot) × Meeting)) : List (Spot × Meeting) :=
  met.map fun p => (p.1.2, p.2)

theorem firstSpots_pairedEnds (marks marks' : Marks) (lhs expr : Node) :
    firstSpots (pairedEnds marks marks' lhs expr) = ends marks lhs expr :=
  (meetingsFrom_map Prod.fst (fun _ => rfl) (fun _ => rfl) _ lhs expr).symm

theorem secondSpots_pairedEnds (marks marks' : Marks) (lhs expr : Node) :
    secondSpots (pairedEnds marks marks' lhs expr) = ends marks' lhs expr :=
  (meetingsFrom_map Prod.snd (fun _ => rfl) (fun _ => rfl) _ lhs expr).symm

/-- The two spots of an end are on one level, and what is found there has the property. -/
def EndsHave (P : Marks → Marks → Node → Prop) (met : List ((Spot × Spot) × Meeting)) : Prop :=
  ∀ p ∈ met, p.1.1.level = p.1.2.level ∧
    ∀ n, p.2.found? = some n → AllParts P p.1.1.marks p.1.2.marks n

theorem endsHave_meetingsFrom {P : Marks → Marks → Node → Prop} {here : Spot × Spot} {expr : Node}
    (hlevel : here.1.level = here.2.level) (h : AllParts P here.1.marks here.2.marks expr)
    (lhs : Node) :
    EndsHave P (meetingsFrom (Prod.map Spot.first Spot.first) (Prod.map Spot.second Spot.second)
      here lhs expr) := by
  intro p hp
  fun_induction meetingsFrom (Prod.map Spot.first Spot.first)
    (Prod.map Spot.second Spot.second) here lhs expr with
  | case1 | case4 | case5 | case7 | case8 =>
    cases List.mem_singleton.1 hp
    refine ⟨hlevel, fun n hn => ?_⟩
    cases hn
    exact h
  | case2 here q e ih =>
    cases h with
    | neg _ hx => exact ih (congrArg (· + 1) hlevel) hx hp
  | case3 here q e ih =>
    cases h with
    | group _ hx => exact ih (congrArg (· + 1) hlevel) hx hp
  | case6 here _ _ _ l r ihl ihr =>
    cases h with
    | binary _ hl hr =>
      rcases List.mem_append.1 hp with hp | hp
      · exact ihl (congrArg (· + 1) hlevel) hl hp
      · exact ihr (congrArg (· + 1) hlevel) hr hp
  | case9 =>
    cases List.mem_singleton.1 hp
    refine ⟨hlevel, fun n hn => ?_⟩
    cases hn

theorem pairedEnds_have {P : Marks → Marks → Node → Prop} {marks marks' : Marks} {expr : Node}
    (h : AllParts P marks marks' expr) (lhs : Node) :
    EndsHave P (pairedEnds marks marks' lhs expr) :=
  endsHave_meetingsFrom rfl h lhs

theorem heldMarks_map {β : Type} (spot : β → Spot) (met : List (β × Meeting)) (i : Int) :
    heldMarks (met.map fun p => (spot p.1, p.2)) i =
      (firstSite met i).map fun p => (spot p.1).marks := by
  induction met with
  | nil => rfl
  | cons p met ih =>
    obtain ⟨place, meeting⟩ := p
    rw [heldMarks, firstSite] at ih
    rw [heldMarks, firstSite, List.map_cons, List.findSome?_cons, List.findSome?_cons, ih]
    cases meeting with
    | clash | improper => rfl
    | site j found => by_cases hj : j = i <;> simp [hj]

theorem meetingOverruns_refines {met : List ((Spot × Spot) × Meeting)}
    (hmet : EndsHave (fun m m' n => f m.mark = m'.mark ∧ V m'.mark = n) met) {m : Match}
    (hm : ∀ i n, m.bindings.get? i = some n → ∃ spots, firstSite met i = some (spots, n))
    {p : (Spot × Spot) × Meeting} (hp : p ∈ met)
    (h : meetingOverruns bound strict (heldMarks (secondSpots met)) m.bindings p.1.2 p.2 = true) :
    meetingOverruns bound strict (heldMarks (firstSpots met)) m.bindings p.1.1 p.2 = true := by
  obtain ⟨⟨spot, spot'⟩, meeting⟩ := p
  obtain ⟨hlevel, hparts⟩ := hmet _ hp
  dsimp only at hlevel hparts h ⊢
  simp only [meetingOverruns, Bool.or_eq_true, hlevel] at h ⊢
  refine h.imp id fun h => ?_
  cases meeting with
  | clash | improper => exact h
  | site i found =>
    have hfound := hparts found rfl
    simp only [Bool.and_eq_true] at h ⊢
    refine ⟨h.1, ?_⟩
    cases hget : m.bindings.get? i with
    | none =>
      simp [hget] at h
    | some first =>
      obtain ⟨spots, hfirst⟩ := hm i first hget
      have hheld := (hmet _ (mem_of_firstSite hfirst)).2 first rfl
      have hmarks := heldMarks_map Prod.fst met i
      have hmarks' := heldMarks_map Prod.snd met i
      rw [hfirst, Option.map_some] at hmarks hmarks'
      have h := h.2
      rw [hget, secondSpots, hmarks'] at h
      rw [firstSpots, hmarks]
      dsimp only at h ⊢
      cases hsame : first.sameWithin ((bound.deepest - spot'.level) / 3) spots.1.marks found
          spot.marks with
      | none => rfl
      | some answer =>
        obtain ⟨hsame', -⟩ := sameWithin_refines hheld hfound hsame
        rw [hsame'] at h
        exact h

/-- What is left of a match goes no less deep with finer marks. By induction on the meetings left:
`met` are those taken into account, and the atoms are bound to what they have met first among
them. -/
theorem matchOverrun_refines {met rest : List ((Spot × Spot) × Meeting)} {m : Match}
    (hmet : EndsHave (fun m m' n => f m.mark = m'.mark ∧ V m'.mark = n) (met ++ rest))
    (hm : Match.BindsFirst met m)
    (h : (matchOverrun bound strict (heldMarks (secondSpots (met ++ rest))) m
      (secondSpots rest)).isSome) :
    (matchOverrun bound strict (heldMarks (firstSpots (met ++ rest))) m
      (firstSpots rest)).isSome := by
  induction rest generalizing met m with
  | nil => cases h
  | cons p rest ih =>
    have hfirst : ∀ i n, m.bindings.get? i = some n →
        ∃ spots, firstSite (met ++ p :: rest) i = some (spots, n) := by
      intro i n hn
      rw [hm i, Option.map_eq_some_iff] at hn
      obtain ⟨⟨spots, found⟩, hsite, rfl⟩ := hn
      exact ⟨spots, by rw [firstSite_append, hsite, Option.some_or]⟩
    have hmeeting : meetingOverruns bound strict (heldMarks (secondSpots (met ++ p :: rest)))
        m.bindings p.1.2 p.2 = true →
          meetingOverruns bound strict (heldMarks (firstSpots (met ++ p :: rest)))
            m.bindings p.1.1 p.2 = true :=
      meetingOverruns_refines hmet hfirst (List.mem_append_right met List.mem_cons_self)
    have hrest : ∀ next, m.meet strict p.2 = .ok next →
        (matchOverrun bound strict (heldMarks (secondSpots (met ++ p :: rest))) next
          (secondSpots rest)).isSome →
        (matchOverrun bound strict (heldMarks (firstSpots (met ++ p :: rest))) next
          (firstSpots rest)).isSome := by
      intro next hmeet
      have happend : met ++ p :: rest = met ++ [p] ++ rest := by simp
      rw [happend] at hmet ⊢
      exact ih hmet (hm.meet hmeet)
    generalize heldMarks (secondSpots (met ++ p :: rest)) = held' at h hmeeting hrest
    generalize heldMarks (firstSpots (met ++ p :: rest)) = held at hmeeting hrest ⊢
    rw [secondSpots, List.map_cons, matchOverrun] at h
    rw [firstSpots, List.map_cons, matchOverrun]
    split
    · rfl
    · next hwithin =>
      rw [if_neg fun hover => hwithin (hmeeting hover)] at h
      cases hmeet : m.meet strict p.2 with
      | error fault =>
        rw [hmeet] at h
        cases h
      | ok next =>
        rw [hmeet] at h
        exact hrest next hmeet h

/-- **A step that stays within the bound with some marks stays within it with coarser ones.** -/
theorem stepOverrun_refines {marks marks' : Marks} {lhs rhs expr : Node}
    (hexpr : Refines f V marks marks' expr)
    (h : (stepOverrun bound strict marks' lhs rhs expr).isSome) :
    (stepOverrun bound strict marks lhs rhs expr).isSome := by
  have hmatch : (matchOverrun bound strict (heldMarks (ends marks' lhs expr)) .empty
      (ends marks' lhs expr)).isSome →
        (matchOverrun bound strict (heldMarks (ends marks lhs expr)) .empty
          (ends marks lhs expr)).isSome := by
    rw [← firstSpots_pairedEnds marks marks' lhs expr,
      ← secondSpots_pairedEnds marks marks' lhs expr]
    exact matchOverrun_refines (pairedEnds_have hexpr lhs) Match.bindsFirst_empty
  simp only [stepOverrun] at h ⊢
  cases hfine : matchOverrun bound strict (heldMarks (ends marks lhs expr)) .empty
      (ends marks lhs expr) with
  | some mismatches => rfl
  | none =>
    cases hcoarse : matchOverrun bound strict (heldMarks (ends marks' lhs expr)) .empty
        (ends marks' lhs expr) with
    | some mismatches =>
      rw [hfine, hcoarse] at hmatch
      cases hmatch rfl
    | none =>
      rw [hcoarse] at h
      exact h

theorem fresh_step {lhs rhs expr result : Node} {outcome : Rewrite} {marks m' : Marks} {next : Nat}
    (hlhs : lhs.IsFormula) (hrhs : rhs.IsFormula)
    (hstep : step strict lhs rhs expr = .ok outcome) (hresult : outcome.status = .ok result)
    (hmarks : Labels next V (fun _ n => n) marks m' expr) :
    ∃ bound V', Labels bound V' (fun _ n => n) (fresh (heldMarks (ends marks lhs expr)) next rhs).1
      m' result := by
  obtain ⟨found, hfind, hstep'⟩ := step_eq strict hlhs hrhs expr
  obtain rfl := Except.ok.inj (hstep'.symm.trans hstep)
  simp only [statusAfter] at hresult
  split at hresult
  · cases hresult
  split at hresult
  · next hbound =>
    cases hresult
    have hheld : ∀ i ∈ rhs.atoms, ∃ held, heldMarks (ends marks lhs expr) i = some held ∧
        ∀ any, Labels next V (fun _ n => n) held any (found.bindings.toSubst i) := by
      intro i hi
      obtain ⟨n, hn⟩ := Node.isBound_iff.1 hbound i hi
      have hfirst : (firstSite (pairedEnds marks m' lhs expr) i).map (·.2) = some n :=
        (Match.find_bindsFirst _ _ _ hfind i).symm.trans hn
      obtain ⟨⟨spots, n⟩, hsite, rfl⟩ := Option.map_eq_some_iff.1 hfirst
      refine ⟨spots.1.marks, ?_, fun any => ?_⟩
      · rw [← firstSpots_pairedEnds marks m' lhs expr, firstSpots, heldMarks_map Prod.fst, hsite]
        rfl
      · rw [Bindings.toSubst_of_get? hn]
        exact ((pairedEnds_have hmarks lhs _ (mem_of_firstSite hsite)).2 n rfl).with_any
          (fun _ _ _ _ h => h) any
    have hlabels : ∀ i ∈ rhs.atoms, ∀ held, heldMarks (ends marks lhs expr) i = some held →
        ∀ any, Labels next V (fun _ n => n) held any (found.bindings.toSubst i) := by
      intro i hi held hsome
      obtain ⟨held', hsome', hlabels⟩ := hheld i hi
      obtain rfl := Option.some.inj (hsome.symm.trans hsome')
      exact hlabels
    have hfree : ∀ i ∈ rhs.atoms, heldMarks (ends marks lhs expr) i = none →
        ∃ j, found.bindings.toSubst i = .atom j := by
      intro i hi hnone
      obtain ⟨held, hsome, -⟩ := hheld i hi
      rw [hnone] at hsome
      cases hsome
    obtain ⟨V', -, -, hV'⟩ := fresh_labels (fun _ n => n) V _ _ next hrhs hlabels hfree m'
    exact ⟨_, V', hV'⟩
  · cases hresult

/-! ## Two steps -/

variable {symbols symbols₁ symbols' : Symbols} {rules : RuleStore} {π ρ : Int → Int}

theorem one_le_of_overrun {target rule : Node}
    (h : overrun bound symbols rules strict target rule = none) : 1 ≤ bound.deepest := by
  simp only [overrun, links_eq, List.length_append, List.length_singleton] at h
  split at h
  · cases h
  · omega

/-- One rule applied to a formula goes beyond the bound where its step does. -/
theorem overrun_formula {expr rule lhs rhs : Node} (hexpr : expr.IsFormula)
    (hrule : resolve symbols rules rule = .ok (.equivalence lhs rhs)) (hbound : 1 ≤ bound.deepest) :
    (overrun bound symbols rules strict expr rule).isSome =
      (stepOverrun bound strict (fresh (fun _ => none) 0 expr).1 lhs rhs expr).isSome := by
  have hone : ¬ bound.deepest < [rule].length := Nat.not_lt.2 hbound
  simp only [overrun, links_eq, head_formula hexpr, applied_formula hexpr, List.nil_append,
    if_neg hone]
  exact overrunFrom_one hrule _ _

/-- A chain of two rules goes beyond the bound where its second step does, if the first one stays
within the bound with one level less. -/
theorem overrun_two {expr lhs₁ rhs₁ lhs₂ rhs₂ result : Node} {outcome : Rewrite}
    (hexpr : expr.IsFormula) (hbound : 2 ≤ bound.deepest)
    (hwithin : stepOverrun (bound.below 1) strict (fresh (fun _ => none) 0 expr).1 lhs₁ rhs₁ expr =
      none)
    (hstep : step strict lhs₁ rhs₁ expr = .ok outcome) (hresult : outcome.status = .ok result) :
    (overrun bound symbols rules strict (.application expr (.equivalence lhs₁ rhs₁))
        (.equivalence lhs₂ rhs₂)).isSome =
      (stepOverrun bound strict
        (fresh (heldMarks (ends (fresh (fun _ => none) 0 expr).1 lhs₁ expr))
          (fresh (fun _ => none) 0 expr).2 rhs₁).1 lhs₂ rhs₂ result).isSome := by
  have hlinks : ¬ bound.deepest <
      ([Node.equivalence lhs₁ rhs₁] ++ [Node.equivalence lhs₂ rhs₂]).length :=
    Nat.not_lt.2 hbound
  obtain ⟨status, mismatches⟩ := outcome
  dsimp only at hresult
  subst hresult
  simp only [overrun, links_eq, head, applied, head_formula hexpr, applied_formula hexpr,
    List.nil_append, if_neg hlinks]
  rw [List.singleton_append, overrunFrom]
  simp only [resolve, List.length_singleton, hwithin, hstep, Option.isSome_map]
  exact overrunFrom_one rfl _ _

/-- **If the second of two steps goes beyond the bound, it does also as the first step of a
chain**, where the result of the step before, with other numbers for atoms, stands at the head.
In the chain of two, the first step has one level less. -/
theorem overrun_stepwise {expr lhs₁ rhs₁ lhs₂ rhs₂ result : Node} {outcome : Rewrite}
    (hexpr : expr.IsFormula) (hlhs₁ : lhs₁.IsFormula) (hrhs₁ : rhs₁.IsFormula)
    (hstep : step strict lhs₁ rhs₁ expr = .ok outcome) (hresult : outcome.status = .ok result)
    (hfirst : overrun (bound.below 1) symbols₁ rules strict expr (.equivalence lhs₁ rhs₁) = none)
    (hlhs₂ : lhs₂.IsFormula) (hπ : DistinctOn π (lhs₂.atoms ++ rhs₂.atoms))
    (hρ : DistinctOn ρ result.atoms)
    (h : (overrun bound symbols rules strict (.application expr (.equivalence lhs₁ rhs₁))
      (.equivalence lhs₂ rhs₂)).isSome) :
    (overrun bound symbols' rules strict (result.renumbered ρ)
      (.equivalence (lhs₂.renumbered π) (rhs₂.renumbered π))).isSome := by
  obtain ⟨outcome', hstep', hover⟩ := step_over strict hlhs₁ hrhs₁ hexpr
  obtain rfl := Except.ok.inj (hstep'.symm.trans hstep)
  have hformula : result.IsFormula := (hover.result hresult).formula
  have hbelow : 1 ≤ (bound.below 1).deepest := one_le_of_overrun hfirst
  have hbound : 2 ≤ bound.deepest := by
    rw [Bound.deepest_below] at hbelow
    omega
  have hone : 1 ≤ bound.deepest := Nat.le_of_succ_le hbound
  have hwithin : stepOverrun (bound.below 1) strict (fresh (fun _ => none) 0 expr).1 lhs₁ rhs₁ expr =
      none := by
    have hsame : (overrun _ symbols₁ rules strict expr (.equivalence lhs₁ rhs₁)).isSome = _ :=
      overrun_formula hexpr rfl hbelow
    rw [hfirst] at hsame
    exact Option.isNone_iff_eq_none.1 (Option.isSome_eq_false_iff.1 hsame.symm)
  -- The result as the first step has marked it, and marked afresh.
  obtain ⟨V, hexprLabels⟩ := fresh_labels_new (fun _ n => n) (fun _ => .stray none) 0 hexpr default
  obtain ⟨_, V', hlabels⟩ := fresh_step hlhs₁ hrhs₁ hstep hresult hexprLabels
  obtain ⟨f, hrefines⟩ := fresh_refines hformula hlabels 0
  rw [overrun_formula (hformula.renumbered ρ) rfl hone, fresh_renumbered,
    stepOverrun_renumbered _ hlhs₂ hformula hπ hρ]
  rw [overrun_two hexpr hbound hwithin hstep hresult] at h
  exact stepOverrun_refines hrefines h

end Rewrite

end Propositional
