/-
The order of nodes. Keys compare item by item, and the first difference decides
(`Parted`). The key of a node says where it ends, so two different nodes of one sort
have keys that part within both of them, at items of one make (`Peers.eq_or_parted`).
With this the comparison never fails, takes no two different nodes for equal and can be
turned round; that it is transitive holds of all keys. So a list of expressions has one
sorted form, in whatever order it is given (`order_is_total`).
-/
import Propositional.Node.Order

namespace Propositional

namespace Node

/-! ## Keys -/

variable {xs ys zs : List KeyItem} {o : Ordering}

theorem compareKeys_rank (n : Nat) (xs ys : List KeyItem) :
    compareKeys (.rank n :: xs) (.rank n :: ys) = compareKeys xs ys := by
  rw [compareKeys, if_pos rfl]

theorem compareKeys_number (n : Int) (xs ys : List KeyItem) :
    compareKeys (.number n :: xs) (.number n :: ys) = compareKeys xs ys := by
  rw [compareKeys, if_pos rfl]

/-- Comparing the other way round gives the opposite. -/
theorem compareKeys_swap (h : compareKeys xs ys = .ok o) : compareKeys ys xs = .ok o.swap := by
  fun_induction compareKeys xs ys with
  | case1 | case2 | case3 =>
    cases h
    rfl
  | case4 m xs ys ih =>
    rw [compareKeys_rank]
    exact ih h
  | case5 m xs n ys hne =>
    cases h
    rw [compareKeys, if_neg (Ne.symm hne), Nat.compare_swap]
  | case6 m xs ys ih =>
    rw [compareKeys_number]
    exact ih h
  | case7 m xs n ys hne =>
    cases h
    rw [compareKeys, if_neg (Ne.symm hne), Int.compare_swap]
  | case8 => cases h

theorem compareKeys_rank_lt {m n : Nat} :
    compareKeys (.rank m :: xs) (.rank n :: ys) = .ok .lt ↔
      m < n ∨ m = n ∧ compareKeys xs ys = .ok .lt := by
  rw [compareKeys]
  split
  · next h => simp [h]
  · next h => simp [h, Nat.compare_eq_lt]

theorem compareKeys_number_lt {m n : Int} :
    compareKeys (.number m :: xs) (.number n :: ys) = .ok .lt ↔
      m < n ∨ m = n ∧ compareKeys xs ys = .ok .lt := by
  rw [compareKeys]
  split
  · next h => simp [h]
  · next h => simp [h, Int.compare_eq_lt]

theorem compareKeys_trans (h₁ : compareKeys xs ys = .ok .lt) (h₂ : compareKeys ys zs = .ok .lt) :
    compareKeys xs zs = .ok .lt := by
  fun_induction compareKeys xs ys generalizing zs with
  | case1 | case3 | case8 => cases h₁
  | case2 y ys =>
    cases zs with
    | nil => cases y <;> cases h₂
    | cons z zs => rfl
  | case4 m xs ys ih =>
    match zs, h₂ with
    | .rank n :: zs, h₂ =>
      rw [compareKeys_rank_lt] at h₂ ⊢
      exact h₂.imp_right fun ⟨hmn, hrest⟩ => ⟨hmn, ih h₁ hrest⟩
  | case6 m xs ys ih =>
    match zs, h₂ with
    | .number n :: zs, h₂ =>
      rw [compareKeys_number_lt] at h₂ ⊢
      exact h₂.imp_right fun ⟨hmn, hrest⟩ => ⟨hmn, ih h₁ hrest⟩
  | case5 m xs n ys hne =>
    have hmn : m < n := Nat.compare_eq_lt.1 (Except.ok.inj h₁)
    match zs, h₂ with
    | .rank k :: zs, h₂ =>
      rw [compareKeys_rank_lt] at h₂ ⊢
      omega
  | case7 m xs n ys hne =>
    have hmn : m < n := Int.compare_eq_lt.1 (Except.ok.inj h₁)
    match zs, h₂ with
    | .number k :: zs, h₂ =>
      rw [compareKeys_number_lt] at h₂ ⊢
      omega

/-- Keys that differ at items of one make, so that they compare alike whatever follows them,
and not as equal. -/
def Parted (xs ys : List KeyItem) : Prop :=
  ∃ o, o ≠ .eq ∧ ∀ us vs, compareKeys (xs ++ us) (ys ++ vs) = .ok o

theorem parted_rank {m n : Nat} (h : m ≠ n) (xs ys : List KeyItem) :
    Parted (.rank m :: xs) (.rank n :: ys) :=
  ⟨compare m n, mt Nat.compare_eq_eq.1 h, fun us vs => by
    rw [List.cons_append, List.cons_append, compareKeys, if_neg h]⟩

theorem parted_number {m n : Int} (h : m ≠ n) (xs ys : List KeyItem) :
    Parted (.number m :: xs) (.number n :: ys) :=
  ⟨compare m n, mt Int.compare_eq_eq.1 h, fun us vs => by
    rw [List.cons_append, List.cons_append, compareKeys, if_neg h]⟩

theorem Parted.rank (h : Parted xs ys) (n : Nat) : Parted (.rank n :: xs) (.rank n :: ys) := by
  obtain ⟨o, ho, hall⟩ := h
  refine ⟨o, ho, fun us vs => ?_⟩
  rw [List.cons_append, List.cons_append, compareKeys_rank, hall]

theorem Parted.number (h : Parted xs ys) (n : Int) : Parted (.number n :: xs) (.number n :: ys) := by
  obtain ⟨o, ho, hall⟩ := h
  refine ⟨o, ho, fun us vs => ?_⟩
  rw [List.cons_append, List.cons_append, compareKeys_number, hall]

theorem Parted.append (h : Parted xs ys) (us vs : List KeyItem) :
    Parted (xs ++ us) (ys ++ vs) := by
  obtain ⟨o, ho, hall⟩ := h
  refine ⟨o, ho, fun us' vs' => ?_⟩
  rw [List.append_assoc, List.append_assoc, hall]

/-! ## Nodes of one sort -/

/-- The nodes that compare with one another: two expressions, or two rules. -/
inductive Peers : Node → Node → Prop
  | expressions {a b : Node} : a.IsExpression → b.IsExpression → Peers a b
  | rules {a b : Node} : a.IsRule → b.IsRule → Peers a b

/-- Keys that begin with the key of one node compare by what follows it. -/
theorem compareKeys_after {a b : Node} (h : Peers a b) (xs ys : List KeyItem) :
    compareKeys (a.key ++ xs) (a.key ++ ys) = compareKeys xs ys := by
  induction a generalizing b xs ys with
  | atom i | ruleName i =>
    simp only [key, List.cons_append, List.nil_append, compareKeys_rank, compareKeys_number]
  | neg x ih | group x ih =>
    simp only [key, List.cons_append, compareKeys_rank]
    cases h with
    | expressions ha =>
      cases ha
      next hx => exact ih (.expressions hx hx) xs ys
    | rules ha => cases ha
  | binary l op r ihl ihr =>
    cases h with
    | expressions ha =>
      cases ha with
      | binary _ hl hr =>
        simp only [key, List.cons_append, List.append_assoc, compareKeys_rank]
        rw [ihl (.expressions hl hl), compareKeys_number, ihr (.expressions hr hr)]
    | rules ha => cases ha
  | equivalence l r ihl ihr =>
    cases h with
    | expressions ha => cases ha
    | rules ha =>
      cases ha with
      | equivalence hl hr =>
        simp only [key, List.cons_append, List.append_assoc, compareKeys_rank]
        rw [ihl (.expressions hl hl), ihr (.expressions hr hr)]
  | application l r ihl ihr | binding l r ihl ihr =>
    cases h with
    | expressions ha =>
      cases ha
      next hl hr =>
        simp only [key, List.cons_append, List.append_assoc, compareKeys_rank]
        rw [ihl (.expressions hl hl), ihr (.rules hr hr)]
    | rules ha => cases ha
  | stray w =>
    cases h with
    | expressions ha | rules ha => cases ha

/-- Lists that begin with the keys of peers part within these keys, or after them if the two
are one node. -/
theorem parted_or {a b : Node} {p : Prop} (h : Peers a b) (hkeys : a = b ∨ Parted a.key b.key)
    (hrest : p ∨ Parted xs ys) : a = b ∧ p ∨ Parted (a.key ++ xs) (b.key ++ ys) := by
  rcases hkeys with rfl | hkeys
  · refine hrest.imp (fun hp => ⟨rfl, hp⟩) fun ⟨o, ho, hall⟩ => ⟨o, ho, fun us vs => ?_⟩
    rw [List.append_assoc, List.append_assoc, compareKeys_after h, hall]
  · exact .inr (hkeys.append xs ys)

/-- Two nodes of one kind, with two parts each. -/
theorem parted_two {l r l' r' : Node} (hl : Peers l l') (hleft : l = l' ∨ Parted l.key l'.key)
    (hright : r = r' ∨ Parted r.key r'.key) (n : Nat) (f : Node → Node → Node) :
    f l r = f l' r' ∨ Parted (.rank n :: (l.key ++ r.key)) (.rank n :: (l'.key ++ r'.key)) :=
  (parted_or hl hleft hright).imp (fun ⟨hl, hr⟩ => by rw [hl, hr]) (·.rank n)

/-- The connectives of two binary nodes come before their right parts. -/
theorem parted_connective {op op' : Connective} {r r' : Node}
    (hright : r = r' ∨ Parted r.key r'.key) :
    op = op' ∧ r = r' ∨ Parted (.number op.rank :: r.key) (.number op'.rank :: r'.key) := by
  by_cases hop : op = op'
  · subst hop
    exact hright.imp (⟨rfl, ·⟩) (·.number _)
  · exact .inr (parted_number (fun he => hop (Connective.rank_injective (by omega))) _ _)

/-- **The keys of different peers part.** -/
theorem Peers.eq_or_parted {a b : Node} (h : Peers a b) : a = b ∨ Parted a.key b.key := by
  induction a generalizing b with
  | atom i =>
    cases h with
    | rules ha => cases ha
    | expressions _ hb =>
      cases hb with
      | atom j =>
        by_cases hij : i = j
        · exact .inl (congrArg atom hij)
        · exact .inr ((parted_number hij [] []).rank 5)
      | neg | group | binary | application | binding => exact .inr (parted_rank (by decide) _ _)
  | ruleName i =>
    cases h with
    | expressions ha => cases ha
    | rules _ hb =>
      cases hb with
      | ruleName j =>
        by_cases hij : i = j
        · exact .inl (congrArg ruleName hij)
        · exact .inr ((parted_number hij [] []).rank 1)
      | equivalence => exact .inr (parted_rank (by decide) _ _)
  | neg x ih =>
    cases h with
    | rules ha => cases ha
    | expressions ha hb =>
      cases hb with
      | @neg y hy =>
        cases ha with
        | neg hx => exact (ih (.expressions hx hy)).imp (congrArg neg) (·.rank 3)
      | atom | group | binary | application | binding => exact .inr (parted_rank (by decide) _ _)
  | group x ih =>
    cases h with
    | rules ha => cases ha
    | expressions ha hb =>
      cases hb with
      | @group y hy =>
        cases ha with
        | group hx => exact (ih (.expressions hx hy)).imp (congrArg group) (·.rank 4)
      | atom | neg | binary | application | binding => exact .inr (parted_rank (by decide) _ _)
  | binary l op r ihl ihr =>
    cases h with
    | rules ha => cases ha
    | expressions ha hb =>
      cases hb with
      | @binary l' r' op' hl' hr' =>
        cases ha with
        | binary _ hl hr =>
          have hl := Peers.expressions hl hl'
          have hrest : op = op' ∧ r = r' ∨ _ := parted_connective (ihr (.expressions hr hr'))
          refine (parted_or hl (ihl hl) hrest).imp ?_ (·.rank 2)
          rintro ⟨rfl, rfl, rfl⟩
          rfl
      | atom | neg | group | application | binding => exact .inr (parted_rank (by decide) _ _)
  | equivalence l r ihl ihr =>
    cases h with
    | expressions ha => cases ha
    | rules ha hb =>
      cases hb with
      | @equivalence l' r' hl' hr' =>
        cases ha with
        | equivalence hl hr =>
          have hl := Peers.expressions hl hl'
          exact parted_two hl (ihl hl) (ihr (.expressions hr hr')) 0 equivalence
      | ruleName => exact .inr (parted_rank (by decide) _ _)
  | application l r ihl ihr =>
    cases h with
    | rules ha => cases ha
    | expressions ha hb =>
      cases hb with
      | @application l' r' hl' hr' =>
        cases ha with
        | application hl hr =>
          have hl := Peers.expressions hl hl'
          exact parted_two hl (ihl hl) (ihr (.rules hr hr')) 0 application
      | atom | neg | group | binary | binding => exact .inr (parted_rank (by decide) _ _)
  | binding l r ihl ihr =>
    cases h with
    | rules ha => cases ha
    | expressions ha hb =>
      cases hb with
      | @binding l' r' hl' hr' =>
        cases ha with
        | binding hl hr =>
          have hl := Peers.expressions hl hl'
          exact parted_two hl (ihl hl) (ihr (.rules hr hr')) 1 binding
      | atom | neg | group | binary | application => exact .inr (parted_rank (by decide) _ _)
  | stray w =>
    cases h with
    | expressions ha | rules ha => cases ha

/-! ## Comparing nodes -/

variable {a b c : Node}

theorem Peers.symm (h : Peers a b) : Peers b a := by
  cases h with
  | expressions ha hb => exact .expressions hb ha
  | rules ha hb => exact .rules hb ha

theorem Peers.not_stray (h : Peers a b) (w : Option String) : a ≠ stray w := by
  rintro rfl
  cases h with
  | expressions ha | rules ha => cases ha

/-- Peers compare, and as equal only if they are. -/
theorem Peers.compareKeys_ok (h : Peers a b) :
    ∃ o, compareKeys a.key b.key = .ok o ∧ (o = .eq ↔ a = b) := by
  rcases h.eq_or_parted with rfl | ⟨o, ho, hall⟩
  · have hself := compareKeys_after h [] []
    rw [List.append_nil] at hself
    exact ⟨.eq, hself, by simp⟩
  · have hkeys := hall [] []
    rw [List.append_nil, List.append_nil] at hkeys
    refine ⟨o, hkeys, fun he => absurd he ho, ?_⟩
    rintro rfl
    have hself := compareKeys_after h [] []
    rw [List.append_nil, hkeys] at hself
    exact Except.ok.inj hself

/-- How peers compare decides all four relations between them. -/
theorem Peers.compares_eq (h : Peers a b) (hkeys : compareKeys a.key b.key = .ok o)
    (relation : Relation) : compares relation a b = .ok (relation.holds o) := by
  unfold Node.compares
  split
  · next w => exact absurd rfl (h.not_stray w)
  · next w _ => exact absurd rfl (h.symm.not_stray w)
  · rw [hkeys]

/-- One of two peers stands before the other, or they are equal. -/
theorem Peers.trichotomy (h : Peers a b) :
    compares .lt a b = .ok true ∧ a ≠ b ∧ compares .lt b a = .ok false ∨
      compares .lt a b = .ok false ∧ a = b ∧ compares .lt b a = .ok false ∨
      compares .lt a b = .ok false ∧ a ≠ b ∧ compares .lt b a = .ok true := by
  obtain ⟨o, hkeys, heq⟩ := h.compareKeys_ok
  rw [h.compares_eq hkeys, h.symm.compares_eq (compareKeys_swap hkeys)]
  cases o with
  | lt => exact .inl ⟨rfl, by simp [← heq], rfl⟩
  | eq => exact .inr (.inl ⟨rfl, heq.1 rfl, rfl⟩)
  | gt => exact .inr (.inr ⟨rfl, by simp [← heq], rfl⟩)

theorem Peers.le_iff (h : Peers a b) :
    compares .le a b = .ok true ↔ compares .lt a b = .ok true ∨ a = b := by
  obtain ⟨o, hkeys, heq⟩ := h.compareKeys_ok
  rw [h.compares_eq hkeys, h.compares_eq hkeys, ← heq]
  cases o <;> simp [Relation.holds]

theorem Peers.gt_eq (h : Peers a b) : compares .gt a b = compares .lt b a := by
  obtain ⟨o, hkeys, -⟩ := h.compareKeys_ok
  rw [h.compares_eq hkeys, h.symm.compares_eq (compareKeys_swap hkeys), Relation.holds, Relation.holds,
    Ordering.isLT_swap]

theorem Peers.ge_eq (h : Peers a b) : compares .ge a b = compares .le b a := by
  obtain ⟨o, hkeys, -⟩ := h.compareKeys_ok
  rw [h.compares_eq hkeys, h.symm.compares_eq (compareKeys_swap hkeys), Relation.holds, Relation.holds,
    Ordering.isLE_swap]

theorem Peers.lt_iff (h : Peers a b) :
    compares .lt a b = .ok true ↔ compareKeys a.key b.key = .ok .lt := by
  obtain ⟨o, hkeys, -⟩ := h.compareKeys_ok
  rw [h.compares_eq hkeys, hkeys]
  cases o <;> simp [Relation.holds]

theorem Peers.trans (hab : Peers a b) (hbc : Peers b c) : Peers a c := by
  cases hab with
  | expressions ha hb =>
    cases hbc with
    | expressions _ hc => exact .expressions ha hc
    | rules hb' => cases hb' <;> cases hb
  | rules ha hb =>
    cases hbc with
    | expressions hb' => cases hb' <;> cases hb
    | rules _ hc => exact .rules ha hc

theorem Peers.lt_trans (hab : Peers a b) (hbc : Peers b c) (h₁ : compares .lt a b = .ok true)
    (h₂ : compares .lt b c = .ok true) : compares .lt a c = .ok true := by
  rw [hab.lt_iff] at h₁
  rw [hbc.lt_iff] at h₂
  exact (hab.trans hbc).lt_iff.2 (compareKeys_trans h₁ h₂)

theorem Peers.le_trans (hab : Peers a b) (hbc : Peers b c) (h₁ : compares .le a b = .ok true)
    (h₂ : compares .le b c = .ok true) : compares .le a c = .ok true := by
  rcases hab.le_iff.1 h₁ with h₁ | rfl
  · rcases hbc.le_iff.1 h₂ with h₂ | rfl
    · exact (hab.trans hbc).le_iff.2 (.inl (hab.lt_trans hbc h₁ h₂))
    · exact hab.le_iff.2 (.inl h₁)
  · exact h₂

theorem Peers.le_total (h : Peers a b) : compares .le a b = .ok true ∨ compares .le b a = .ok true := by
  rw [h.le_iff, h.symm.le_iff]
  rcases h.trichotomy with ⟨hlt, -⟩ | ⟨-, rfl, -⟩ | ⟨-, -, hlt⟩
  · exact .inl (.inl hlt)
  · exact .inl (.inr rfl)
  · exact .inr (.inl hlt)

theorem Peers.le_antisymm (h : Peers a b) (h₁ : compares .le a b = .ok true)
    (h₂ : compares .le b a = .ok true) : a = b := by
  rw [h.le_iff] at h₁
  rw [h.symm.le_iff] at h₂
  rcases h.trichotomy with ⟨-, hne, hgt⟩ | ⟨-, rfl, -⟩ | ⟨hlt, hne, -⟩
  · refine (h₂.resolve_left ?_).symm
    rw [hgt]
    simp
  · rfl
  · refine h₁.resolve_left ?_
    rw [hlt]
    simp

/-! ## Sorting -/

theorem Peers.keyLe_iff (h : Peers a b) : keyLe a.key b.key = true ↔ compares .le a b = .ok true := by
  obtain ⟨o, hkeys, -⟩ := h.compareKeys_ok
  rw [h.compares_eq hkeys, keyLe, hkeys, Relation.holds, Except.ok.injEq]
  rfl

variable {α : Type} {node : α → Node} {items : List α}

/-- Items come out in the order of their nodes, if these compare. -/
theorem arrange_sorted (h : ∀ a ∈ items, ∀ b ∈ items, Peers (node a) (node b)) :
    (arrange node items).Pairwise fun a b => compares .le (node a) (node b) = .ok true := by
  have htotal : ∀ a b, a ∈ items → b ∈ items →
      keyLe (node a).key (node b).key = true ∨ keyLe (node b).key (node a).key = true := by
    intro a b ha hb
    rw [(h a ha b hb).keyLe_iff, (h b hb a ha).keyLe_iff]
    exact (h a ha b hb).le_total
  have htrans : ∀ a b c, a ∈ items → b ∈ items → c ∈ items →
      keyLe (node a).key (node b).key = true → keyLe (node b).key (node c).key = true →
      keyLe (node a).key (node c).key = true := by
    intro a b c ha hb hc
    rw [(h a ha b hb).keyLe_iff, (h b hb c hc).keyLe_iff, (h a ha c hc).keyLe_iff]
    exact (h a ha b hb).le_trans (h b hb c hc)
  have hsorted := Sorting.sort_sorted htotal htrans fun a ha => ha
  have hmem : ∀ a ∈ arrange node items, a ∈ items := fun a => (arrange_perm node items).mem_iff.1
  rw [arrange_eq] at hmem ⊢
  exact hsorted.imp_of_mem fun {a b} ha hb => (h a (hmem a ha) b (hmem b hb)).keyLe_iff.1

/-- Items with expressions, or with rules, are sorted by their keys. -/
theorem sortBy_eq (h : ∀ a ∈ items, ∀ b ∈ items, Peers (node a) (node b)) :
    sortBy node items = .ok (arrange node items) := by
  have hall : allCompare (items.map node) = true := by
    rw [allCompare]
    simp only [List.all_map, List.all_eq_true, Function.comp_apply]
    intro a ha b hb
    obtain ⟨o, hkeys, -⟩ := (h a ha b hb).compareKeys_ok
    rw [hkeys]
    rfl
  rw [sortBy, if_pos hall]

/-- There is one sorted list of the same expressions. -/
theorem sort_unique {xs ys : List Node} (hxs : ∀ n ∈ xs, n.IsExpression) (hperm : xs.Perm ys) :
    ∃ sorted, Node.sort xs = .ok sorted ∧ Node.sort ys = .ok sorted ∧ sorted.Perm xs ∧
      sorted.Pairwise fun a b => compares .le a b = .ok true := by
  have hpeers : ∀ a ∈ xs, ∀ b ∈ xs, Peers a b := fun a ha b hb => .expressions (hxs a ha) (hxs b hb)
  have hpeers' : ∀ a ∈ ys, ∀ b ∈ ys, Peers a b := fun a ha b hb =>
    hpeers a (hperm.mem_iff.2 ha) b (hperm.mem_iff.2 hb)
  have hsorted : (arrange id xs).Pairwise fun a b => compares .le a b = .ok true :=
    arrange_sorted hpeers
  have hsorted' : (arrange id ys).Pairwise fun a b => compares .le a b = .ok true :=
    arrange_sorted hpeers'
  have hsame : arrange id xs = arrange id ys := by
    refine List.Perm.eq_of_pairwise (fun a b ha hb => ?_) hsorted hsorted'
      (((arrange_perm id xs).trans hperm).trans (arrange_perm id ys).symm)
    exact (hpeers a ((arrange_perm id xs).mem_iff.1 ha) b
      (hperm.mem_iff.2 ((arrange_perm id ys).mem_iff.1 hb))).le_antisymm
  exact ⟨arrange id xs, sortBy_eq hpeers, hsame ▸ sortBy_eq hpeers', arrange_perm id xs, hsorted⟩

/-- **The order of nodes is total, and agrees with equality.** Let two nodes be expressions,
with applications and bindings at any depth, or let both be rules. All four comparisons of them
have an answer. Exactly one of three holds: the first stands before the second, they are equal,
or the second stands before the first. At most means before or equal, and the other two
comparisons are the converse of these. To stand before is transitive. So two lists with the same
expressions, however ordered, are sorted to one and the same list, in which each expression is
at most the next ones. -/
theorem order_is_total :
    (∀ {a b : Node}, Peers a b →
      (∀ relation, ∃ answer, compares relation a b = .ok answer) ∧
      (compares .lt a b = .ok true ∧ a ≠ b ∧ compares .lt b a = .ok false ∨
        compares .lt a b = .ok false ∧ a = b ∧ compares .lt b a = .ok false ∨
        compares .lt a b = .ok false ∧ a ≠ b ∧ compares .lt b a = .ok true) ∧
      (compares .le a b = .ok true ↔ compares .lt a b = .ok true ∨ a = b) ∧
      compares .gt a b = compares .lt b a ∧ compares .ge a b = compares .le b a) ∧
    (∀ {a b c : Node}, Peers a b → Peers b c → compares .lt a b = .ok true →
      compares .lt b c = .ok true → compares .lt a c = .ok true) ∧
    ∀ {xs ys : List Node}, (∀ n ∈ xs, n.IsExpression) → xs.Perm ys →
      ∃ sorted, Node.sort xs = .ok sorted ∧ Node.sort ys = .ok sorted ∧ sorted.Perm xs ∧
        sorted.Pairwise fun a b => compares .le a b = .ok true := by
  refine ⟨fun {a b} h => ⟨fun relation => ?_, h.trichotomy, h.le_iff, h.gt_eq, h.ge_eq⟩,
    fun hab hbc => hab.lt_trans hbc, sort_unique⟩
  obtain ⟨o, hkeys, -⟩ := h.compareKeys_ok
  exact ⟨_, h.compares_eq hkeys relation⟩

/-- A binding and an application of a rule name have ranks in common with rules, and the three
nodes below come out in the order application, binding, negation. -/
theorem order_is_total_mixed :
    let applied := Node.application (.neg (.atom 1)) (.ruleName 0)
    let bound := Node.binding (.atom 0) (.equivalence (.atom 0) (.neg applied))
    Peers applied bound ∧ Peers bound (.neg applied) ∧
      compares .lt applied bound = .ok true ∧ compares .lt bound (.neg applied) = .ok true ∧
      compares .lt applied (.neg applied) = .ok true ∧ compares .ge applied bound = .ok false ∧
      ∃ sorted, Node.sort [.neg applied, applied, bound] = .ok sorted ∧
        Node.sort [bound, .neg applied, applied] = .ok sorted := by
  intro applied bound
  have happlied : applied.IsExpression := .application (.neg (.atom 1)) (.ruleName 0)
  have hbound : bound.IsExpression :=
    .binding (.atom 0) (.equivalence (.atom 0) (.neg happlied))
  have hfirst : Peers applied bound := .expressions happlied hbound
  have hsecond : Peers bound (.neg applied) := .expressions hbound (.neg happlied)
  obtain ⟨hpair, htrans, hsort⟩ := order_is_total
  have hlt : compares .lt applied bound = .ok true := rfl
  have hlt' : compares .lt bound (.neg applied) = .ok true := rfl
  obtain ⟨-, -, -, -, hge⟩ := hpair hfirst
  have hall : ∀ n ∈ [.neg applied, applied, bound], n.IsExpression := by
    simp [happlied, hbound, IsExpression.neg happlied]
  have hperm : [.neg applied, applied, bound].Perm [bound, .neg applied, applied] := by decide
  obtain ⟨sorted, hsorted, hsorted', -⟩ := hsort hall hperm
  exact ⟨hfirst, hsecond, hlt, hlt', htrans hfirst hsecond hlt hlt', hge.trans rfl, sorted,
    hsorted, hsorted'⟩

end Node

end Propositional
