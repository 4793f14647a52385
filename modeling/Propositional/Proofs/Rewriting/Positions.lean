/-
Permissive matching told by positions. A position of the left-hand side is reached if
the expression has nodes of the same kind all the way down to it (`Reached`). The walk of
a match ends exactly at the reached positions of atoms and at those where the two trees
differ, from left to right (`mem_walk`, `walk_ordered`). A permissive match takes
all of these ends into account, so it binds each atom at its leftmost place and records
each difference (`permissive_match_by_positions`).
-/
import Propositional.Proofs.Rewriting.Places

namespace Propositional

/-! ## Positions -/

/-- One step down a tree: to the only or left part of a node, or to its right part. -/
inductive Side
  | first
  | second
  deriving DecidableEq, Repr

/-- A place in a tree, as the way down to it. -/
abbrev Position := List Side

/-- Two positions part somewhere, and there the first one goes to the left. -/
def LeftOf (p q : Position) : Prop :=
  ∃ above p' q', p = above ++ Side.first :: p' ∧ q = above ++ Side.second :: q'

theorem LeftOf.under {p q : Position} (side : Side) (h : LeftOf p q) :
    LeftOf (side :: p) (side :: q) := by
  obtain ⟨above, p', q', rfl, rfl⟩ := h
  exact ⟨side :: above, p', q', rfl, rfl⟩

theorem leftOf_apart (p q : Position) : LeftOf (.first :: p) (.second :: q) :=
  ⟨[], p, q, rfl, rfl⟩

namespace Node

/-- The part of a formula one step down. -/
def part? : Side → Node → Option Node
  | .first, neg x | .first, group x => some x
  | .first, binary l _ _ => some l
  | .second, binary _ _ r => some r
  | _, _ => none

/-- The part of a formula at a position. -/
def at? : Position → Node → Option Node
  | [], n => some n
  | side :: p, n => (n.part? side).bind (at? p)

/-- Two nodes of a formula of one kind, and with one connective if they have any. -/
inductive SameKind : Node → Node → Prop
  | atom (i j : Int) : SameKind (atom i) (atom j)
  | neg (x y : Node) : SameKind (neg x) (neg y)
  | group (x y : Node) : SameKind (group x) (group y)
  | binary (op : Connective) (l r l' r' : Node) : SameKind (binary l op r) (binary l' op r')

variable {n x y : Node} {side : Side} {p : Position}

theorem at?_cons (h : n.part? side = some x) : n.at? (side :: p) = x.at? p := by
  rw [at?, h, Option.bind_some]

theorem part?_of_at? (h : n.at? (side :: p) = some y) :
    ∃ x, n.part? side = some x ∧ x.at? p = some y :=
  Option.bind_eq_some_iff.1 h

theorem SameKind.part? {n' : Node} (h : n.SameKind n') (hx : n.part? side = some x) :
    ∃ y, n'.part? side = some y := by
  cases h <;> cases side <;> cases hx <;> exact ⟨_, rfl⟩

theorem IsFormula.part? (h : n.IsFormula) (hx : n.part? side = some x) : x.IsFormula := by
  cases h <;> cases side <;> cases hx <;> assumption

end Node

namespace Match

variable {lhs expr : Node} {side : Side} {p : Position} {meeting : Meeting}

/-- A position of the left-hand side above which the expression has nodes of the same kinds. -/
structure Reached (lhs expr : Node) (p : Position) : Prop where
  inside : ∃ n, lhs.at? p = some n
  above : ∀ q, q <+: p → q ≠ p →
    ∃ x y, lhs.at? q = some x ∧ expr.at? q = some y ∧ x.SameKind y

theorem reached_nil (lhs expr : Node) : Reached lhs expr [] :=
  ⟨⟨lhs, rfl⟩, fun _ hq hne => absurd (List.prefix_nil.1 hq) hne⟩

theorem reached_cons :
    Reached lhs expr (side :: p) ↔
      lhs.SameKind expr ∧ ∃ x y, lhs.part? side = some x ∧ expr.part? side = some y ∧
        Reached x y p := by
  constructor
  · rintro ⟨⟨n, hn⟩, habove⟩
    obtain ⟨x, hx, hn⟩ := Node.part?_of_at? hn
    obtain ⟨_, _, hlhs, hexpr, hsame⟩ :=
      habove [] List.nil_prefix (List.cons_ne_nil side p).symm
    cases hlhs
    cases hexpr
    obtain ⟨y, hy⟩ := hsame.part? hx
    refine ⟨hsame, x, y, hx, hy, ⟨n, hn⟩, fun q hq hne => ?_⟩
    have hbelow := habove (side :: q) (List.cons_prefix_cons.2 ⟨rfl, hq⟩)
      fun heq => hne (List.cons.inj heq).2
    rwa [Node.at?_cons hx, Node.at?_cons hy] at hbelow
  · rintro ⟨hsame, x, y, hx, hy, ⟨n, hn⟩, habove⟩
    refine ⟨⟨n, (Node.at?_cons hx).trans hn⟩, fun q hq hne => ?_⟩
    rcases List.prefix_cons_iff.1 hq with rfl | ⟨q, rfl, hq⟩
    · exact ⟨lhs, expr, rfl, rfl, hsame⟩
    · rw [Node.at?_cons hx, Node.at?_cons hy]
      exact habove q (List.cons_prefix_cons.1 hq).2 fun heq => hne (congrArg _ heq)

/-- The expression has something at every reached position. -/
theorem Reached.inExpr (h : Reached lhs expr p) : ∃ found, expr.at? p = some found := by
  induction p generalizing lhs expr with
  | nil => exact ⟨expr, rfl⟩
  | cons side p ih =>
    obtain ⟨-, x, y, -, hy, hbelow⟩ := reached_cons.1 h
    rw [Node.at?_cons hy]
    exact ih hbelow

/-- A reached position of an atom of the left-hand side. -/
def IsSite (lhs expr : Node) (i : Int) (p : Position) : Prop :=
  Reached lhs expr p ∧ lhs.at? p = some (.atom i)

/-- The leftmost reached position of an atom. -/
def IsLeftmostSite (lhs expr : Node) (i : Int) (p : Position) : Prop :=
  IsSite lhs expr i p ∧ ∀ q, IsSite lhs expr i q → q = p ∨ LeftOf p q

/-- A reached position that has no atom, with what the left-hand side has there and the node
of another kind or with another connective in the expression. -/
structure IsClash (lhs expr : Node) (p : Position) (pattern found : Node) : Prop where
  reached : Reached lhs expr p
  onLeft : lhs.at? p = some pattern
  inExpr : expr.at? p = some found
  notAtom : ∀ i, pattern ≠ .atom i
  differ : ¬ pattern.SameKind found

/-- Why a node of the left-hand side does not match one of another kind. -/
def reasonFor : (pattern found : Node) → MismatchReason
  | .neg _, _ => .negation
  | .group _, _ => .parentheses
  | .binary _ op _, .binary _ op' _ => .otherConnective op op'
  | .binary _ op _, _ => .connective op
  | _, _ => .inconsistent

/-- How the walk ends at two nodes: the first is an atom, or they are of different kinds. -/
inductive EndsWith : (pattern found : Node) → Meeting → Prop
  | site (i : Int) (found : Node) : EndsWith (.atom i) found (.site i found)
  | clash {pattern found : Node} : (∀ i, pattern ≠ .atom i) → ¬ pattern.SameKind found →
      EndsWith pattern found (.clash ⟨pattern, found, reasonFor pattern found⟩)

/-- How the walk ends at a reached position. -/
def Ends (lhs expr : Node) (p : Position) (meeting : Meeting) : Prop :=
  Reached lhs expr p ∧
    ∃ pattern found, lhs.at? p = some pattern ∧ expr.at? p = some found ∧
      EndsWith pattern found meeting

theorem ends_nil : Ends lhs expr [] meeting ↔ EndsWith lhs expr meeting := by
  simp [Ends, reached_nil, Node.at?]

theorem ends_cons :
    Ends lhs expr (side :: p) meeting ↔
      lhs.SameKind expr ∧ ∃ x y, lhs.part? side = some x ∧ expr.part? side = some y ∧
        Ends x y p meeting := by
  constructor
  · rintro ⟨hreached, pattern, found, hpattern, hfound, hends⟩
    obtain ⟨hsame, x, y, hx, hy, hbelow⟩ := reached_cons.1 hreached
    rw [Node.at?_cons hx] at hpattern
    rw [Node.at?_cons hy] at hfound
    exact ⟨hsame, x, y, hx, hy, hbelow, pattern, found, hpattern, hfound, hends⟩
  · rintro ⟨hsame, x, y, hx, hy, hbelow, pattern, found, hpattern, hfound, hends⟩
    exact ⟨reached_cons.2 ⟨hsame, x, y, hx, hy, hbelow⟩, pattern, found,
      (Node.at?_cons hx).trans hpattern, (Node.at?_cons hy).trans hfound, hends⟩

theorem ends_site {i : Int} {found : Node} :
    Ends lhs expr p (.site i found) ↔ IsSite lhs expr i p ∧ expr.at? p = some found := by
  constructor
  · rintro ⟨hreached, _, _, hatom, hfound, hends⟩
    cases hends
    exact ⟨⟨hreached, hatom⟩, hfound⟩
  · rintro ⟨⟨hreached, hatom⟩, hfound⟩
    exact ⟨hreached, _, found, hatom, hfound, .site i found⟩

theorem ends_clash {mismatch : Mismatch} :
    Ends lhs expr p (.clash mismatch) ↔
      IsClash lhs expr p mismatch.pattern mismatch.found ∧
        mismatch.reason = reasonFor mismatch.pattern mismatch.found := by
  obtain ⟨pattern, found, reason⟩ := mismatch
  constructor
  · rintro ⟨hreached, _, _, hpattern, hfound, hends⟩
    cases hends with
    | clash hatom hdiffer => exact ⟨⟨hreached, hpattern, hfound, hatom, hdiffer⟩, rfl⟩
  · rintro ⟨⟨hreached, hpattern, hfound, hatom, hdiffer⟩, hreason⟩
    dsimp only at hreason
    subst hreason
    exact ⟨hreached, pattern, found, hpattern, hfound, .clash hatom hdiffer⟩

/-! ## The walk -/

/-- The ends of a match with their positions. -/
def walk (lhs expr : Node) : List (Position × Meeting) :=
  meetingsFrom (· ++ [.first]) (· ++ [.second]) [] lhs expr

def under (side : Side) (p : Position × Meeting) : Position × Meeting := (side :: p.1, p.2)

theorem map_snd_walk (lhs expr : Node) : (walk lhs expr).map (·.2) = meetings lhs expr :=
  map_snd_meetingsFrom ..

theorem walk_under (side : Side) (lhs expr : Node) :
    meetingsFrom (· ++ [.first]) (· ++ [.second]) [side] lhs expr =
      (walk lhs expr).map (under side) := by
  have hstep (last : Side) (p : Position) : side :: (p ++ [last]) = (side :: p) ++ [last] := rfl
  exact meetingsFrom_map (side :: ·) (hstep .first) (hstep .second) [] lhs expr

theorem walk_atom (i : Int) (expr : Node) : walk (.atom i) expr = [([], .site i expr)] := rfl

theorem walk_neg (x y : Node) : walk (.neg x) (.neg y) = (walk x y).map (under .first) :=
  walk_under .first x y

theorem walk_group (x y : Node) : walk (.group x) (.group y) = (walk x y).map (under .first) :=
  walk_under .first x y

theorem walk_binary (op : Connective) (l r l' r' : Node) :
    walk (.binary l op r) (.binary l' op r') =
      (walk l l').map (under .first) ++ (walk r r').map (under .second) := by
  rw [← walk_under, ← walk_under, walk, meetingsFrom, if_pos rfl]
  rfl

/-- A node other than an atom that meets one of another kind ends the walk. -/
theorem walk_clash (hlhs : lhs.IsFormula) (hatom : ∀ i, lhs ≠ .atom i)
    (hdiffer : ¬ lhs.SameKind expr) :
    walk lhs expr = [([], .clash ⟨lhs, expr, reasonFor lhs expr⟩)] := by
  cases hlhs with
  | atom i => exact absurd rfl (hatom i)
  | neg =>
    cases expr with
    | neg y => exact absurd (.neg ..) hdiffer
    | _ => rfl
  | group =>
    cases expr with
    | group y => exact absurd (.group ..) hdiffer
    | _ => rfl
  | binary op =>
    cases expr with
    | binary l' op' r' =>
      have hop : op ≠ op' := by
        rintro rfl
        exact hdiffer (.binary ..)
      rw [walk, meetingsFrom, if_neg hop]
      rfl
    | _ => rfl

theorem mem_under {side : Side} {ends : List (Position × Meeting)} :
    (p, meeting) ∈ ends.map (under side) ↔ ∃ q, p = side :: q ∧ (q, meeting) ∈ ends := by
  constructor
  · intro h
    obtain ⟨⟨q, _⟩, hq, heq⟩ := List.mem_map.1 h
    cases heq
    exact ⟨q, rfl, hq⟩
  · rintro ⟨q, rfl, hq⟩
    exact List.mem_map.2 ⟨(q, meeting), hq, rfl⟩

/-- The walk ends at once where the first node is an atom or the two are of different kinds. -/
theorem nil_mem_walk (hlhs : lhs.IsFormula) :
    ([], meeting) ∈ walk lhs expr ↔ EndsWith lhs expr meeting := by
  constructor
  · intro h
    by_cases hatom : ∃ i, lhs = .atom i
    · obtain ⟨i, rfl⟩ := hatom
      cases List.mem_singleton.1 h
      exact .site i expr
    have hatom := not_exists.1 hatom
    by_cases hsame : lhs.SameKind expr
    · cases hsame with
      | atom i j => exact absurd rfl (hatom i)
      | neg x y => simp [walk_neg, mem_under] at h
      | group x y => simp [walk_group, mem_under] at h
      | binary op l r l' r' => simp [walk_binary, mem_under] at h
    · rw [walk_clash hlhs hatom hsame, List.mem_singleton] at h
      cases h
      exact .clash hatom hsame
  · intro h
    cases h with
    | site i => exact List.mem_singleton_self _
    | clash hatom hdiffer =>
      rw [walk_clash hlhs hatom hdiffer]
      exact List.mem_singleton_self _

theorem cons_mem_walk (hlhs : lhs.IsFormula) :
    (side :: p, meeting) ∈ walk lhs expr ↔
      lhs.SameKind expr ∧ ∃ x y, lhs.part? side = some x ∧ expr.part? side = some y ∧
        (p, meeting) ∈ walk x y := by
  by_cases hsame : lhs.SameKind expr
  · rw [and_iff_right hsame]
    cases hsame with
    | atom i j => cases side <;> simp [walk_atom, Node.part?]
    | neg x y => cases side <;> simp [walk_neg, mem_under, Node.part?]
    | group x y => cases side <;> simp [walk_group, mem_under, Node.part?]
    | binary op l r l' r' => cases side <;> simp [walk_binary, mem_under, Node.part?]
  · refine iff_of_false (fun h => ?_) fun h => hsame h.1
    by_cases hatom : ∃ i, lhs = .atom i
    · obtain ⟨i, rfl⟩ := hatom
      cases List.mem_singleton.1 h
    · rw [walk_clash hlhs (not_exists.1 hatom) hsame, List.mem_singleton] at h
      cases h

/-- **The walk ends at the reached positions of atoms, and at those where the trees differ.** By
induction on the position. -/
theorem mem_walk (hlhs : lhs.IsFormula) :
    (p, meeting) ∈ walk lhs expr ↔ Ends lhs expr p meeting := by
  induction p generalizing lhs expr with
  | nil => rw [nil_mem_walk hlhs, ends_nil]
  | cons side p ih =>
    rw [cons_mem_walk hlhs, ends_cons]
    refine and_congr_right fun _ => ?_
    constructor
    · rintro ⟨x, y, hx, hy, h⟩
      exact ⟨x, y, hx, hy, (ih (hlhs.part? hx)).1 h⟩
    · rintro ⟨x, y, hx, hy, h⟩
      exact ⟨x, y, hx, hy, (ih (hlhs.part? hx)).2 h⟩

/-- Ends of a walk, from left to right. -/
abbrev Ordered {α : Type} (ends : List (Position × α)) : Prop :=
  ends.Pairwise fun a b => LeftOf a.1 b.1

theorem Ordered.map_under {ends : List (Position × Meeting)} (h : Ordered ends) (side : Side) :
    Ordered (ends.map (under side)) :=
  List.pairwise_map.2 (h.imp (LeftOf.under side))

/-- The walk goes from left to right. -/
theorem walk_ordered (hlhs : lhs.IsFormula) (expr : Node) : Ordered (walk lhs expr) := by
  induction hlhs generalizing expr with
  | atom i => exact List.pairwise_singleton ..
  | @neg x hx ih =>
    by_cases hsame : (Node.neg x).SameKind expr
    · cases hsame
      rw [walk_neg]
      exact (ih _).map_under _
    · rw [walk_clash hx.neg nofun hsame]
      exact List.pairwise_singleton ..
  | @group x hx ih =>
    by_cases hsame : (Node.group x).SameKind expr
    · cases hsame
      rw [walk_group]
      exact (ih _).map_under _
    · rw [walk_clash hx.group nofun hsame]
      exact List.pairwise_singleton ..
  | @binary l r op hl hr ihl ihr =>
    by_cases hsame : (Node.binary l op r).SameKind expr
    · cases hsame with
      | binary _ _ _ l' r' =>
        rw [walk_binary]
        refine List.pairwise_append.2 ⟨(ihl l').map_under _, (ihr r').map_under _, ?_⟩
        rintro ⟨p, _⟩ hp ⟨q, _⟩ hq
        obtain ⟨p, rfl, -⟩ := mem_under.1 hp
        obtain ⟨q, rfl, -⟩ := mem_under.1 hq
        exact leftOf_apart p q
    · rw [walk_clash (hl.binary op hr) nofun hsame]
      exact List.pairwise_singleton ..

/-! ## What is gathered on the walk -/

/-- The mismatch at an end of a walk, if there is one. -/
def clash? : Position × Meeting → Option (Position × Mismatch)
  | (place, .clash mismatch) => some (place, mismatch)
  | _ => none

theorem clash?_eq_some {e : Position × Meeting} {mismatch : Mismatch} :
    clash? e = some (p, mismatch) ↔ e = (p, .clash mismatch) := by
  obtain ⟨place, meeting⟩ := e
  cases meeting <;> simp [clash?]

/-- The mismatches among the ends of a walk. -/
def clashes (met : List (Position × Meeting)) : List (Position × Mismatch) :=
  met.filterMap clash?

theorem mem_clashes {met : List (Position × Meeting)} {mismatch : Mismatch} :
    (p, mismatch) ∈ clashes met ↔ (p, .clash mismatch) ∈ met := by
  simp only [clashes, List.mem_filterMap, clash?_eq_some, exists_eq_right]

theorem Ordered.clashes {met : List (Position × Meeting)} (h : Ordered met) :
    Ordered (clashes met) := by
  refine List.pairwise_filterMap.2 (h.imp ?_)
  rintro a a' hleft ⟨p, mismatch⟩ hp ⟨q, mismatch'⟩ hq
  obtain rfl := clash?_eq_some.1 hp
  obtain rfl := clash?_eq_some.1 hq
  exact hleft

variable {met : List (Position × Meeting)} {m m' : Match} {sites : List (Position × Int × Node)}

/-- What a permissive match has after some ends of a walk: what atoms have met first, in the
order of the places, and the mismatches among the ends. -/
structure Gathered (met : List (Position × Meeting)) (m : Match)
    (sites : List (Position × Int × Node)) : Prop where
  first : BindsFirst met m
  bindings : m.bindings.entries = sites.map (·.2)
  places : (sites.map (·.1)).Sublist (met.map (·.1))
  firstSites : ∀ site ∈ sites, firstSite met site.2.1 = some (site.1, site.2.2)
  mismatches : m.mismatches = (clashes met).map (·.2)

theorem gathered_empty : Gathered [] empty [] :=
  ⟨bindsFirst_empty, rfl, .slnil, nofun, rfl⟩

/-- One more end, with another place for an atom that is met for the first time. -/
theorem Gathered.meet (h : Gathered met m sites) {e : Position × Meeting}
    (hmeet : m.meet false e.2 = .ok m') : ∃ sites', Gathered (met ++ [e]) m' sites' := by
  have hfirst := h.first.meet hmeet
  have hkept : ∀ site ∈ sites, firstSite (met ++ [e]) site.2.1 = some (site.1, site.2.2) := by
    intro site hsite
    rw [firstSite_append, h.firstSites site hsite, Option.some_or]
  have hplaces : (sites.map (·.1)).Sublist ((met ++ [e]).map (·.1)) := by
    rw [List.map_append]
    exact h.places.trans (List.sublist_append_left ..)
  obtain ⟨place, meeting⟩ := e
  cases meeting with
  | improper => cases hmeet
  | clash mismatch =>
    cases hmeet
    refine ⟨sites, hfirst, h.bindings, hplaces, hkept, ?_⟩
    rw [record, h.mismatches, clashes, clashes, List.filterMap_append, List.map_append]
    rfl
  | site i found =>
    have hclashes : clashes (met ++ [(place, .site i found)]) = clashes met := by
      rw [clashes, List.filterMap_append]
      exact List.append_nil _
    rw [Match.meet] at hmeet
    split at hmeet
    · next hfree =>
      cases hmeet
      have hsite : firstSite (met ++ [(place, .site i found)]) i = some (place, found) := by
        rw [firstSite_append, h.first.unmet hfree, firstSite_site, if_pos rfl]
        rfl
      refine ⟨sites ++ [(place, i, found)], hfirst, ?_, ?_, fun site hmem => ?_, ?_⟩
      · rw [OrderedMap.entries_insert_new hfree, h.bindings, List.map_append]
        rfl
      · rw [List.map_append, List.map_append]
        exact h.places.append (List.Sublist.refl _)
      · rcases List.mem_append.1 hmem with hmem | hmem
        · exact hkept site hmem
        · cases List.mem_singleton.1 hmem
          exact hsite
      · rw [hclashes]
        exact h.mismatches
    · cases hmeet
      exact ⟨sites, hfirst, h.bindings, hplaces, hkept, hclashes ▸ h.mismatches⟩

theorem Gathered.follow (h : Gathered met m sites) {rest : List (Position × Meeting)}
    (hfollow : Match.follow false m (rest.map (·.2)) = .ok m') :
    ∃ sites', Gathered (met ++ rest) m' sites' := by
  induction rest generalizing met m sites with
  | nil =>
    cases hfollow
    rw [List.append_nil]
    exact ⟨sites, h⟩
  | cons e rest ih =>
    rw [List.map_cons, follow_cons] at hfollow
    obtain ⟨next, hmeet, hrest⟩ := bind_eq_ok hfollow
    obtain ⟨sites', hnext⟩ := h.meet hmeet
    rw [← List.singleton_append, ← List.append_assoc]
    exact ih hnext hrest

theorem find_gathered (h : find false lhs expr = .ok m) :
    ∃ sites, Gathered (walk lhs expr) m sites := by
  rw [find, ← map_snd_walk] at h
  exact gathered_empty.follow h

theorem isSite_iff (hlhs : lhs.IsFormula) {i : Int} :
    IsSite lhs expr i p ↔ ∃ found, (p, .site i found) ∈ walk lhs expr := by
  simp only [mem_walk hlhs, ends_site, exists_and_left]
  exact (and_iff_left_of_imp fun h => h.1.inExpr).symm

/-- The first place of an atom is its leftmost one. -/
theorem isLeftmostSite_of_firstSite (hlhs : lhs.IsFormula) {i : Int} {found : Node}
    (h : firstSite (walk lhs expr) i = some (p, found)) :
    IsLeftmostSite lhs expr i p ∧ expr.at? p = some found := by
  obtain ⟨hsite, hfound⟩ := ends_site.1 ((mem_walk hlhs).1 (mem_of_firstSite h))
  refine ⟨⟨hsite, fun q hq => ?_⟩, hfound⟩
  obtain ⟨other, hother⟩ := (isSite_iff hlhs).1 hq
  obtain ⟨before, after, hwalk, hbefore⟩ := firstSite_split h
  have hordered := walk_ordered hlhs expr
  rw [hwalk] at hordered hother
  rcases List.mem_append.1 hother with hother | hother
  · exact absurd hother (hbefore q other)
  rcases List.mem_cons.1 hother with heq | hother
  · exact .inl (congrArg Prod.fst heq)
  · have hafter := (List.pairwise_append.1 hordered).2.1
    exact .inr ((List.pairwise_cons.1 hafter).1 _ hother)

/-! ## The match and the step -/

/-- What a permissive match finds, told by positions. -/
structure MatchedByPositions (lhs expr : Node) (found : Match) : Prop where
  /-- The atoms with a reached position are bound. -/
  bound : ∀ i, found.bindings.contains i ↔ ∃ p, IsSite lhs expr i p
  /-- Each of them is bound to what is at the leftmost one, in the order of these positions. -/
  bindings : ∃ sites : List (Position × Int × Node), Ordered sites ∧
    found.bindings.entries = sites.map (·.2) ∧
    ∀ site ∈ sites, IsLeftmostSite lhs expr site.2.1 site.1 ∧ expr.at? site.1 = some site.2.2
  /-- There is one mismatch for each position where the trees differ, in their order. -/
  mismatches : ∃ differences : List (Position × Mismatch), Ordered differences ∧
    found.mismatches = differences.map (·.2) ∧
    ∀ p mismatch, (p, mismatch) ∈ differences ↔
      IsClash lhs expr p mismatch.pattern mismatch.found ∧
        mismatch.reason = reasonFor mismatch.pattern mismatch.found

theorem Gathered.byPositions (hlhs : lhs.IsFormula) (h : Gathered (walk lhs expr) m sites) :
    MatchedByPositions lhs expr m where
  bound i := by
    simp only [isSite_iff hlhs, ← firstSite_isSome_iff]
    rw [OrderedMap.contains, h.first i, Option.isSome_map]
  bindings := by
    refine ⟨sites, ?_, h.bindings, fun site hsite => ?_⟩
    · exact List.pairwise_map.1 ((List.pairwise_map.2 (walk_ordered hlhs expr)).sublist h.places)
    · exact isLeftmostSite_of_firstSite hlhs (h.firstSites site hsite)
  mismatches := by
    refine ⟨clashes (walk lhs expr), ?_, h.mismatches, fun p mismatch => ?_⟩
    · exact (walk_ordered hlhs expr).clashes
    · rw [mem_clashes, mem_walk hlhs, ends_clash]

end Match

namespace Rewrite

open Match (IsSite MatchedByPositions)

/-- **Permissive rewriting by positions.** Matching against a formula binds the atoms that have a
reached position, each to what is at its leftmost one, and records the places where the
trees differ. The step succeeds if all atoms of the right-hand side have such a position
and ends unbound otherwise. -/
theorem permissive_by_positions {lhs : Node} (hlhs : lhs.IsFormula) (expr : Node) :
    ∃ found, Match.find false lhs expr = .ok found ∧ MatchedByPositions lhs expr found ∧
      ∀ rhs : Node, rhs.IsFormula → ∃ outcome, step false lhs rhs expr = .ok outcome ∧
        outcome.mismatches = found.mismatches ∧
        ((∃ result, outcome.status = .ok result) ↔ ∀ i ∈ rhs.atoms, ∃ p, IsSite lhs expr i p) ∧
        (outcome.status = .unbound ↔ ¬ ∀ i ∈ rhs.atoms, ∃ p, IsSite lhs expr i p) := by
  obtain ⟨found, hfind⟩ := Match.find_ok false hlhs expr
  obtain ⟨sites, hgathered⟩ := Match.find_gathered hfind
  have hmatched := hgathered.byPositions hlhs
  refine ⟨found, hfind, hmatched, fun rhs hrhs => ⟨_, step_of_find hfind hrhs, rfl, ?_⟩⟩
  have hbound : rhs.isBound found.bindings ↔ ∀ i ∈ rhs.atoms, ∃ p, IsSite lhs expr i p := by
    simp only [Node.isBound, List.all_eq_true, ← hmatched.bound]
    rfl
  rw [← hbound]
  cases h : rhs.isBound found.bindings <;> simp [statusAfter, h]

/-- The first occurrence of `1` is not reached; the second one is, and `1` is bound there. -/
theorem permissive_by_positions_later_site :
    ∃ found, Match.find false
        (.binary (.binary (.atom 0) .conj (.neg (.neg (.atom 1)))) .disj (.atom 1))
        (.binary (.binary (.group (.atom 2)) .conj (.neg (.atom 3))) .disj (.atom 4)) = .ok found ∧
      MatchedByPositions
        (.binary (.binary (.atom 0) .conj (.neg (.neg (.atom 1)))) .disj (.atom 1))
        (.binary (.binary (.group (.atom 2)) .conj (.neg (.atom 3))) .disj (.atom 4)) found ∧
      found.bindings.entries = [(0, .group (.atom 2)), (1, .atom 4)] ∧
      found.mismatches = [⟨.neg (.atom 1), .atom 3, .negation⟩] ∧
      ∃ outcome, step false
          (.binary (.binary (.atom 0) .conj (.neg (.neg (.atom 1)))) .disj (.atom 1))
          (.binary (.atom 0) .conj (.atom 5))
          (.binary (.binary (.group (.atom 2)) .conj (.neg (.atom 3))) .disj (.atom 4)) =
            .ok outcome ∧ outcome.status = .unbound := by
  have hlhs : Node.IsFormula
      (.binary (.binary (.atom 0) .conj (.neg (.neg (.atom 1)))) .disj (.atom 1)) := by decide
  obtain ⟨found, hfind, hmatched, hstep⟩ := permissive_by_positions hlhs
    (.binary (.binary (.group (.atom 2)) .conj (.neg (.atom 3))) .disj (.atom 4))
  obtain ⟨outcome, houtcome, -⟩ := hstep (.binary (.atom 0) .conj (.atom 5)) (by decide)
  refine ⟨found, hfind, hmatched, ?_, ?_, outcome, houtcome, ?_⟩
  · cases hfind
    rfl
  · cases hfind
    rfl
  · cases houtcome
    rfl

end Rewrite

end Propositional
