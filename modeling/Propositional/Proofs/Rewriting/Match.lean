/-
Strict matching is exact. A strict match that found no mismatch has met nothing
but atoms of the left-hand side, and each of them always the same expression, the
one it is bound to (`Follows`). So the left-hand side with the bindings put for
its atoms is the expression (`find_exact`).
-/
import Propositional.Semantics

namespace Propositional

/-- What is put for an atom: what it is bound to. -/
def Bindings.toSubst (bindings : Bindings) (i : Int) : Node := (bindings.get? i).getD (.atom i)

theorem Bindings.toSubst_of_get? {bindings : Bindings} {i : Int} {n : Node}
    (h : bindings.get? i = some n) : bindings.toSubst i = n := by
  rw [toSubst, h, Option.getD_some]

namespace Match

/-- Between two states of a strict match that has found no mismatch: bindings stay, new
ones come from the ends taken into account, and each of these is an atom at what it is
bound to. -/
structure Follows (m m' : Match) (ends : List Meeting) : Prop where
  clean : m.mismatches = []
  kept : ∀ {i n}, m.bindings.get? i = some n → m'.bindings.get? i = some n
  origin : ∀ {i n}, m'.bindings.get? i = some n → m.bindings.get? i = some n ∨ .site i n ∈ ends
  sites : ∀ e ∈ ends, ∃ i n, e = .site i n ∧ m'.bindings.get? i = some n

theorem Follows.refl {m : Match} (h : m.mismatches = []) : Follows m m [] :=
  ⟨h, id, .inl, fun _ he => nomatch he⟩

theorem Follows.trans {m m' m'' : Match} {xs ys : List Meeting} (h₁ : Follows m m' xs)
    (h₂ : Follows m' m'' ys) : Follows m m'' (xs ++ ys) where
  clean := h₁.clean
  kept hn := h₂.kept (h₁.kept hn)
  origin hn := by
    rcases h₂.origin hn with hn | hn
    · rcases h₁.origin hn with hn | hn
      · exact .inl hn
      · exact .inr (List.mem_append_left _ hn)
    · exact .inr (List.mem_append_right _ hn)
  sites e he := by
    rcases List.mem_append.1 he with he | he
    · obtain ⟨i, n, rfl, hn⟩ := h₁.sites e he
      exact ⟨i, n, rfl, h₂.kept hn⟩
    · exact h₂.sites e he

theorem record_mismatches (m : Match) (mismatch : Mismatch) :
    (m.record mismatch).mismatches ≠ [] := by
  rw [record]
  exact List.append_ne_nil_of_right_ne_nil _ (List.cons_ne_nil _ _)

/-- One meeting without a mismatch. -/
theorem meet_follows {m m' : Match} {e : Meeting} (h : m.meet true e = .ok m')
    (hclean : m'.mismatches = []) : Follows m m' [e] := by
  cases e with
  | clash mismatch =>
    cases h
    exact absurd hclean (record_mismatches m mismatch)
  | improper pattern => cases h
  | site i found =>
    rw [meet] at h
    split at h
    · next hfree =>
      cases h
      have hself : (m.bindings.insert i found).get? i = some found :=
        OrderedMap.get?_insert_self ..
      refine ⟨hclean, fun {j n} hn => ?_, fun {j n} hn => ?_, fun e he => ?_⟩
      · have hj : j ≠ i := by
          rintro rfl
          rw [hfree] at hn
          cases hn
        rw [OrderedMap.get?_insert_of_ne _ hj, hn]
      · by_cases hj : j = i
        · subst hj
          rw [hself] at hn
          cases hn
          exact .inr (List.mem_singleton_self _)
        · rw [OrderedMap.get?_insert_of_ne _ hj] at hn
          exact .inl hn
      · cases List.mem_singleton.1 he
        exact ⟨i, found, rfl, hself⟩
    · next bound hbound =>
      split at h
      · cases h
        exact absurd hclean (record_mismatches m _)
      · next hsame =>
        cases h
        have heq : bound = found := by simpa using hsame
        subst heq
        refine ⟨hclean, id, .inl, fun e he => ?_⟩
        cases List.mem_singleton.1 he
        exact ⟨i, bound, rfl, hbound⟩

theorem follow_cons (strict : Bool) (m : Match) (e : Meeting) (ends : List Meeting) :
    follow strict m (e :: ends) = m.meet strict e >>= fun next => follow strict next ends :=
  List.foldlM_cons

theorem follow_follows {m m' : Match} {ends : List Meeting} (h : follow true m ends = .ok m')
    (hclean : m'.mismatches = []) : Follows m m' ends := by
  induction ends generalizing m with
  | nil =>
    cases h
    exact .refl hclean
  | cons e ends ih =>
    rw [follow, List.foldlM_cons] at h
    cases hmeet : m.meet true e with
    | error fault =>
      rw [hmeet] at h
      cases h
    | ok middle =>
      rw [hmeet] at h
      have hrest := ih h
      exact (meet_follows hmeet hrest.clean).trans hrest

/-! ## What the ends say about the two trees -/

/-- A walk that ends at atoms alone went through a formula, which becomes the
expression when each atom is replaced by what it met. -/
theorem subst_eq_of_sites {σ : Int → Node} {first second : β → β} {here : β} {lhs expr : Node}
    (h : ∀ p ∈ meetingsFrom first second here lhs expr, ∃ i n, p.2 = .site i n ∧ σ i = n) :
    lhs.IsFormula ∧ lhs.subst σ = expr := by
  fun_induction meetingsFrom first second here lhs expr with
  | case1 here i expr =>
    obtain ⟨j, n, hsite, hn⟩ := h _ (List.mem_singleton_self _)
    cases hsite
    exact ⟨.atom i, hn⟩
  | case2 here p e ih =>
    obtain ⟨hp, heq⟩ := ih h
    exact ⟨.neg hp, congrArg Node.neg heq⟩
  | case3 here p e ih =>
    obtain ⟨hp, heq⟩ := ih h
    exact ⟨.group hp, congrArg Node.group heq⟩
  | case6 _ _ _ _ _ _ ihl ihr =>
    obtain ⟨hl, hleq⟩ := ihl fun p hp => h p (List.mem_append_left _ hp)
    obtain ⟨hr, hreq⟩ := ihr fun p hp => h p (List.mem_append_right _ hp)
    exact ⟨.binary _ hl hr, by rw [Node.subst, hleq, hreq]⟩
  | case4 | case5 | case7 | case8 | case9 =>
    obtain ⟨i, n, hsite, -⟩ := h _ (List.mem_singleton_self _)
    cases hsite

/-- Parts of a formula that an atom meets are formulas. -/
theorem site_isFormula {first second : β → β} {here : β} {lhs expr : Node}
    (hexpr : expr.IsFormula) {p : β × Meeting} (hp : p ∈ meetingsFrom first second here lhs expr)
    {i : Int} {n : Node} (hsite : p.2 = .site i n) : n.IsFormula := by
  fun_induction meetingsFrom first second here lhs expr with
  | case1 =>
    cases List.mem_singleton.1 hp
    cases hsite
    exact hexpr
  | case2 here q e ih =>
    cases hexpr with
    | neg he => exact ih he hp
  | case3 here q e ih =>
    cases hexpr with
    | group he => exact ih he hp
  | case6 _ _ _ _ _ _ ihl ihr =>
    cases hexpr with
    | binary _ hle hre =>
      rcases List.mem_append.1 hp with hp | hp
      · exact ihl hle hp
      · exact ihr hre hp
  | case4 | case5 | case7 | case8 | case9 =>
    cases List.mem_singleton.1 hp
    cases hsite

/-- A strict match without mismatches makes the expression of the left-hand side, and
binds atoms to formulas if the expression is one. -/
theorem find_exact {lhs expr : Node} {m : Match} (h : find true lhs expr = .ok m)
    (hclean : m.mismatches = []) (hexpr : expr.IsFormula) :
    lhs.IsFormula ∧ lhs.subst m.bindings.toSubst = expr ∧
      ∀ i n, m.bindings.get? i = some n → n.IsFormula := by
  have hfollows := follow_follows h hclean
  have hsites : ∀ p ∈ meetingsFrom id id () lhs expr,
      ∃ i n, p.2 = .site i n ∧ m.bindings.toSubst i = n := by
    intro p hp
    obtain ⟨i, n, hsite, hn⟩ := hfollows.sites p.2 (List.mem_map_of_mem hp)
    exact ⟨i, n, hsite, Bindings.toSubst_of_get? hn⟩
  obtain ⟨hlhs, hexact⟩ := subst_eq_of_sites hsites
  refine ⟨hlhs, hexact, fun i n hn => ?_⟩
  rcases hfollows.origin hn with hn | hn
  · rw [empty, OrderedMap.get?_empty] at hn
    cases hn
  · obtain ⟨p, hp, hsite⟩ := List.mem_map.1 hn
    exact site_isFormula hexpr hp hsite

end Match

end Propositional
