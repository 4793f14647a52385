/-
Places on the walk of a match. Their labels can be chosen freely (`meetingsFrom_map`), the
ends are the same with any. An atom of the left-hand side is bound to what it meets at the
first of its places (`find_bindsFirst`), whether matching is strict or not.
-/
import Propositional.Proofs.Rewriting.Outcome

namespace Propositional

/-! ## Labels of places -/

/-- Labels of places can be read off from richer ones. -/
theorem meetingsFrom_map {β γ : Type} (g : β → γ) {first second : β → β} {first' second' : γ → γ}
    (hfirst : ∀ b, g (first b) = first' (g b)) (hsecond : ∀ b, g (second b) = second' (g b))
    (here : β) (lhs expr : Node) :
    meetingsFrom first' second' (g here) lhs expr =
      (meetingsFrom first second here lhs expr).map fun p => (g p.1, p.2) := by
  fun_induction meetingsFrom first second here lhs expr with
  | case1 => rfl
  | case2 here p e ih | case3 here p e ih =>
    rw [meetingsFrom, ← hfirst, ih]
  | case4 here p e hneg =>
    cases e with
    | neg x => exact absurd rfl (hneg x)
    | _ => rfl
  | case5 here p e hgroup =>
    cases e with
    | group x => exact absurd rfl (hgroup x)
    | _ => rfl
  | case6 here pl op pr el er ihl ihr =>
    rw [meetingsFrom, if_pos rfl, ← hfirst, ← hsecond, ihl, ihr, List.map_append]
  | case7 here pl op pr el op' er hop =>
    rw [meetingsFrom, if_neg hop]
    rfl
  | case8 here pl op pr e hbinary =>
    cases e with
    | binary l op' r => exact absurd rfl (hbinary l op' r)
    | _ => rfl
  | case9 here e p hatom hneg hgroup hbinary =>
    cases p with
    | atom i => exact absurd rfl (hatom i)
    | neg x => exact absurd rfl (hneg x)
    | group x => exact absurd rfl (hgroup x)
    | binary l op r => exact absurd rfl (hbinary l op r)
    | _ => rfl

/-- The ends of the walk do not depend on the labels. -/
theorem map_snd_meetingsFrom {β : Type} (first second : β → β) (here : β) (lhs expr : Node) :
    (meetingsFrom first second here lhs expr).map (·.2) = meetings lhs expr := by
  have hplain : meetingsFrom id id () lhs expr =
      (meetingsFrom first second here lhs expr).map fun p => ((), p.2) :=
    meetingsFrom_map (fun _ => ()) (fun _ => rfl) (fun _ => rfl) here lhs expr
  rw [meetings, hplain, List.map_map]
  rfl

/-! ## The first places of atoms -/

/-- Where an atom of the left-hand side first meets an expression, and which one. -/
def firstSite {β : Type} (met : List (β × Meeting)) (i : Int) : Option (β × Node) :=
  met.findSome? fun (place, meeting) =>
    match meeting with
    | .site j found => if j = i then some (place, found) else none
    | _ => none

theorem firstSite_append {β : Type} (xs ys : List (β × Meeting)) (i : Int) :
    firstSite (xs ++ ys) i = (firstSite xs i).or (firstSite ys i) :=
  List.findSome?_append

theorem firstSite_site {β : Type} (place : β) (j : Int) (found : Node) (i : Int) :
    firstSite [(place, .site j found)] i = if j = i then some (place, found) else none := by
  rw [firstSite, List.findSome?_cons]
  split <;> simp_all

/-- The atom has no place before its first one. -/
theorem firstSite_split {β : Type} {met : List (β × Meeting)} {i : Int} {place : β} {found : Node}
    (h : firstSite met i = some (place, found)) :
    ∃ before after, met = before ++ (place, .site i found) :: after ∧
      ∀ place' found', (place', .site i found') ∉ before := by
  obtain ⟨before, ⟨place', meeting⟩, after, rfl, heq, hbefore⟩ := List.findSome?_eq_some_iff.1 h
  cases meeting with
  | clash | improper => cases heq
  | site j found' =>
    dsimp only at heq
    split at heq
    · next hj =>
      cases heq
      subst hj
      refine ⟨before, after, rfl, fun place found hmem => ?_⟩
      have hnone := hbefore _ hmem
      dsimp only at hnone
      rw [if_pos rfl] at hnone
      cases hnone
    · cases heq

theorem mem_of_firstSite {β : Type} {met : List (β × Meeting)} {i : Int} {place : β} {found : Node}
    (h : firstSite met i = some (place, found)) : (place, .site i found) ∈ met := by
  obtain ⟨before, after, rfl, -⟩ := firstSite_split h
  exact List.mem_append_right _ List.mem_cons_self

theorem firstSite_isSome_iff {β : Type} {met : List (β × Meeting)} {i : Int} :
    (firstSite met i).isSome ↔ ∃ place found, (place, .site i found) ∈ met := by
  constructor
  · intro h
    obtain ⟨⟨place, found⟩, hsite⟩ := Option.isSome_iff_exists.1 h
    exact ⟨place, found, mem_of_firstSite hsite⟩
  · rintro ⟨place, found, hmem⟩
    refine List.findSome?_isSome_iff.2 ⟨_, hmem, ?_⟩
    dsimp only
    rw [if_pos rfl]
    rfl

namespace Match

variable {β : Type} {strict : Bool} {m m' : Match} {met : List (β × Meeting)}

/-- Each atom is bound to what it has met first. -/
def BindsFirst (met : List (β × Meeting)) (m : Match) : Prop :=
  ∀ i, m.bindings.get? i = (firstSite met i).map (·.2)

theorem bindsFirst_empty : BindsFirst ([] : List (β × Meeting)) empty := fun _ => rfl

/-- An atom that is not bound has not been met. -/
theorem BindsFirst.unmet (h : BindsFirst met m) {i : Int} (hfree : m.bindings.get? i = none) :
    firstSite met i = none := by
  rwa [h i, Option.map_eq_none_iff] at hfree

theorem BindsFirst.meet (h : BindsFirst met m) {p : β × Meeting}
    (hmeet : m.meet strict p.2 = .ok m') : BindsFirst (met ++ [p]) m' := by
  obtain ⟨place, meeting⟩ := p
  intro i
  rw [firstSite_append]
  cases meeting with
  | improper => cases hmeet
  | clash mismatch =>
    cases hmeet
    exact (h i).trans (congrArg _ Option.or_none.symm)
  | site j found =>
    rw [firstSite_site]
    rw [Match.meet] at hmeet
    split at hmeet
    · next hfree =>
      cases hmeet
      have hnone := h.unmet hfree
      by_cases hj : j = i
      · subst hj
        rw [OrderedMap.get?_insert_self, hnone, if_pos rfl]
        rfl
      · rw [OrderedMap.get?_insert_of_ne _ (Ne.symm hj), if_neg hj, Option.or_none, h i]
    · next bound hbound =>
      have hsame : m'.bindings = m.bindings := by
        split at hmeet <;> cases hmeet <;> rfl
      rw [hsame, h i]
      split
      · next hj =>
        rw [h j, Option.map_eq_some_iff] at hbound
        obtain ⟨first, hfirst, -⟩ := hbound
        rw [← hj, hfirst, Option.some_or]
      · rw [Option.or_none]

theorem BindsFirst.follow (h : BindsFirst met m) {rest : List (β × Meeting)}
    (hfollow : Match.follow strict m (rest.map (·.2)) = .ok m') : BindsFirst (met ++ rest) m' := by
  induction rest generalizing met m with
  | nil =>
    cases hfollow
    rwa [List.append_nil]
  | cons p rest ih =>
    rw [List.map_cons, follow_cons] at hfollow
    obtain ⟨next, hmeet, hrest⟩ := bind_eq_ok hfollow
    have hall := ih (h.meet hmeet) hrest
    rwa [List.append_assoc, List.singleton_append] at hall

/-- A match binds each atom to what it meets first. -/
theorem find_bindsFirst {lhs expr : Node} (first second : β → β) (here : β)
    (h : find strict lhs expr = .ok m) :
    BindsFirst (meetingsFrom first second here lhs expr) m := by
  rw [find, ← map_snd_meetingsFrom first second here] at h
  exact bindsFirst_empty.follow h

end Match

end Propositional
