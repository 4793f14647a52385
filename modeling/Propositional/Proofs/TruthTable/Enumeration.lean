/-
What a truth table shows, and that it leaves nothing out. Evaluating an expression adds no
columns but those of its parts (`Evaluates.gains`), and each column comes with those of its
parts; so the table of a formula knows the columns of the formula's parts and no others
(`known_iff`), which are those that the depth of evaluation counts as met (`met_iff_known`).
Laid out they are in strictly descending order, in which atoms stand before negations and these
before binary nodes (`layout_by_kind`). The rows are the numbers below 2^k, and their bits are
the assignments to k atoms (`bitsOf_rowOf`, `rowOf_bitsOf`); so each assignment is one row
(`exists_one_row`).
-/
import Propositional.Nesting
import Propositional.Proofs.Ordering
import Propositional.Proofs.TruthTable.Columns

namespace Propositional

namespace Node

theorem IsFormula.isExpression {n : Node} (h : n.IsFormula) : n.IsExpression := by
  induction h with
  | atom i => exact .atom i
  | neg _ ih => exact .neg ih
  | group _ ih => exact .group ih
  | binary op _ _ ihl ihr => exact .binary op ihl ihr

theorem IsFormula.peers {a b : Node} (ha : a.IsFormula) (hb : b.IsFormula) : Peers a b :=
  .expressions ha.isExpression hb.isExpression

/-! ## Kinds of formulas in the order of nodes -/

theorem Peers.lt_asymm {a b : Node} (h : Peers a b) (hlt : compares .lt a b = .ok true) :
    compares .lt b a ≠ .ok true := by
  intro hgt
  rcases h.trichotomy with ⟨-, -, hnot⟩ | ⟨hnot, -, -⟩ | ⟨hnot, -, -⟩
  · rw [hgt] at hnot
    cases hnot
  all_goals
    rw [hlt] at hnot
    cases hnot

theorem descending_unique {xs ys : List Node} (hf : ∀ n ∈ xs, n.IsFormula)
    (hmem : ∀ n, n ∈ xs ↔ n ∈ ys) (hxs : xs.Pairwise fun a b => compares .lt b a = .ok true)
    (hys : ys.Pairwise fun a b => compares .lt b a = .ok true) : xs = ys := by
  have hasymm : ∀ {a b : Node}, a ∈ xs → b ∈ xs → compares .lt b a = .ok true →
      compares .lt a b ≠ .ok true := fun ha hb => ((hf _ hb).peers (hf _ ha)).lt_asymm
  have hnodup : ∀ zs : List Node, (∀ n ∈ zs, n ∈ xs) →
      zs.Pairwise (fun a b => compares .lt b a = .ok true) → zs.Nodup := by
    intro zs hzs hpair
    refine hpair.imp_of_mem ?_
    rintro a b ha hb hlt rfl
    exact hasymm (hzs a ha) (hzs a hb) hlt hlt
  have hperm : xs.Perm ys := (List.perm_ext_iff_of_nodup (hnodup xs (fun _ h => h) hxs)
    (hnodup ys (fun n hn => (hmem n).2 hn) hys)).2 hmem
  refine hperm.eq_of_pairwise (fun a b ha hb hlt hgt => ?_) hxs hys
  exact absurd hgt (hasymm ha ((hmem b).2 hb) hlt)

theorem atom_of_lt {i : Int} {b : Node} (hb : b.IsFormula)
    (h : compares .lt (.atom i) b = .ok true) : ∃ j, b = .atom j ∧ i < j := by
  rw [((IsFormula.atom i).peers hb).lt_iff] at h
  cases hb with
  | atom j =>
    have hkeys : compareKeys [.rank 5, .number i] [.rank 5, .number j] = .ok .lt := h
    rw [compareKeys_rank, compareKeys_number_lt] at hkeys
    rcases hkeys with hij | ⟨-, hnil⟩
    · exact ⟨j, rfl, hij⟩
    · cases hnil
  | neg | group | binary =>
    rw [key, key, compareKeys_rank_lt] at h
    omega

theorem binary_of_lt {a l r : Node} {op : Connective} (ha : a.IsFormula)
    (hbinary : (binary l op r).IsFormula) (h : compares .lt a (.binary l op r) = .ok true) :
    ∃ l' op' r', a = .binary l' op' r' := by
  rw [(ha.peers hbinary).lt_iff] at h
  cases ha with
  | binary => exact ⟨_, _, _, rfl⟩
  | atom | neg | group =>
    rw [key, key, compareKeys_rank_lt] at h
    omega

theorem lt_atom {i j : Int} (h : i < j) : compares .lt (.atom i) (.atom j) = .ok true := by
  rw [((IsFormula.atom i).peers (.atom j)).lt_iff]
  change compareKeys [.rank 5, .number i] [.rank 5, .number j] = .ok .lt
  rw [compareKeys_rank, compareKeys_number_lt]
  exact .inl h

/-- Formulas other than groups, in descending order, come kind by kind. By induction on the
list: a negation has no atoms behind it, and a binary node neither atoms nor negations. -/
theorem descending_by_kind {nodes : List Node}
    (h : nodes.Pairwise fun a b => compares .lt b a = .ok true)
    (hf : ∀ n ∈ nodes, n.IsFormula) (hg : ∀ n ∈ nodes, n.isGroup = false) :
    ∃ atoms negations binaries, nodes = atoms ++ (negations ++ binaries) ∧
      (∀ n ∈ atoms, ∃ i, n = .atom i) ∧ (∀ n ∈ negations, ∃ x, n = .neg x) ∧
      ∀ n ∈ binaries, ∃ l op r, n = .binary l op r := by
  induction nodes with
  | nil => exact ⟨[], [], [], rfl, by simp, by simp, by simp⟩
  | cons n rest ih =>
    obtain ⟨hbelow, hrest⟩ := List.pairwise_cons.1 h
    obtain ⟨hn, hfrest⟩ := List.forall_mem_cons.1 hf
    obtain ⟨hgn, hgrest⟩ := List.forall_mem_cons.1 hg
    obtain ⟨atoms, negations, binaries, rfl, ha, hneg, hbin⟩ := ih hrest hfrest hgrest
    have hnoatom : (∀ i, n ≠ .atom i) → atoms = [] := by
      intro hne
      refine List.eq_nil_iff_forall_not_mem.2 fun x hx => ?_
      obtain ⟨i, rfl⟩ := ha x hx
      obtain ⟨j, rfl, -⟩ := atom_of_lt hn (hbelow _ (List.mem_append_left _ hx))
      exact hne j rfl
    cases hn with
    | atom i =>
      exact ⟨.atom i :: atoms, negations, binaries, rfl,
        List.forall_mem_cons.2 ⟨⟨i, rfl⟩, ha⟩, hneg, hbin⟩
    | group => cases hgn
    | @neg x =>
      obtain rfl := hnoatom (by simp)
      exact ⟨[], .neg x :: negations, binaries, rfl, ha,
        List.forall_mem_cons.2 ⟨⟨x, rfl⟩, hneg⟩, hbin⟩
    | @binary l r op hl hr =>
      obtain rfl := hnoatom (by simp)
      have hnoneg : negations = [] := by
        refine List.eq_nil_iff_forall_not_mem.2 fun x hx => ?_
        have hmem := List.mem_append_left binaries hx
        obtain ⟨y, rfl⟩ := hneg x hx
        obtain ⟨_, _, _, hy⟩ := binary_of_lt (hfrest _ hmem) (.binary op hl hr) (hbelow _ hmem)
        cases hy
      subst hnoneg
      exact ⟨[], [], .binary l op r :: binaries, rfl, ha, hneg,
        List.forall_mem_cons.2 ⟨⟨l, op, r, rfl⟩, hbin⟩⟩

end Node

namespace TruthTable

/-! ## The columns of a formula's table -/

theorem isSome_get?_insert {columns : Columns} {n p : Node} {column : Column} :
    ((columns.insert n column).get? p).isSome ↔ (columns.get? p).isSome ∨ p = n := by
  by_cases h : p = n
  · subst h
    simp
  · simp [OrderedMap.get?_insert_of_ne _ h, h]

/-- Evaluating an expression adds columns for its parts alone, also where it fails. -/
theorem Evaluates.gains {columns after : Columns} {n p : Node} {answer : Except Fault Column}
    (h : Evaluates columns n answer after) (hp : (after.get? p).isSome) :
    (columns.get? p).isSome ∨ p ∈ n.parts := by
  induction h with
  | known | improper => exact .inl hp
  | @neg _ _ x _ _ ih | @group _ _ x _ _ ih =>
    rcases isSome_get?_insert.1 hp with hp | rfl
    · exact (ih hp).imp_right (List.mem_cons_of_mem _)
    · exact .inr List.mem_cons_self
  | negFault _ ih | groupFault _ ih => exact (ih hp).imp_right (List.mem_cons_of_mem _)
  | binary _ _ ihl ihr =>
    rcases isSome_get?_insert.1 hp with hp | rfl
    · rcases ihr hp with hp | hp
      · exact (ihl hp).imp_right fun hl => List.mem_cons_of_mem _ (List.mem_append_left _ hl)
      · exact .inr (List.mem_cons_of_mem _ (List.mem_append_right _ hp))
    · exact .inr List.mem_cons_self
  | leftFault _ ih =>
    exact (ih hp).imp_right fun hl => List.mem_cons_of_mem _ (List.mem_append_left _ hl)
  | rightFault _ _ ihl ihr =>
    rcases ihr hp with hp | hp
    · exact (ihl hp).imp_right fun hl => List.mem_cons_of_mem _ (List.mem_append_left _ hl)
    · exact .inr (List.mem_cons_of_mem _ (List.mem_append_right _ hp))

theorem ofFormula_eq_ok {e : Node} {symbols : Symbols} {t : TruthTable}
    (h : ofFormula e symbols = .ok t) :
    ∃ column, collectAtoms e = .ok t.atoms ∧
      Evaluates (atomColumns t.atoms) e (.ok column) t.columns := by
  obtain ⟨atoms, hatoms, h⟩ := bind_eq_ok h
  have hrun := evaluates (atomColumns atoms) e
  split at h
  next column columns hev =>
    cases h
    rw [hev] at hrun
    exact ⟨column, hatoms, hrun⟩
  next => cases h

/-- The table of a formula knows the columns of the formula's parts, and no others. -/
theorem known_iff {e : Node} (he : e.IsFormula) {symbols : Symbols} {t : TruthTable}
    (h : ofFormula e symbols = .ok t) (n : Node) : (t.columns.get? n).isSome ↔ n ∈ e.parts := by
  obtain ⟨column, hcollect, hrun⟩ := ofFormula_eq_ok h
  have hatoms : t.atoms = insertAll [] e.atoms :=
    (Except.ok.inj ((collectAtoms_formula he).symm.trans hcollect)).symm
  have hnodup : t.atoms.Nodup := by
    rw [hatoms]
    exact (insertAll_ascending .nil).imp fun h => Int.ne_of_lt h
  constructor
  · intro hn
    rcases hrun.gains hn with hn | hn
    · rw [← OrderedMap.contains, OrderedMap.contains_iff_mem_keys, keys_of_atoms hnodup] at hn
      obtain ⟨i, hi, rfl⟩ := List.mem_map.1 hn
      rw [hatoms, mem_insertAll] at hi
      exact Node.atom_mem_parts (hi.resolve_left List.not_mem_nil)
    · exact hn
  · intro hn
    have hkept := hrun.keeps (tabulates_atomColumns hnodup)
    exact hkept.tabulates.closed (hkept.known rfl) n hn

/-! ## The parts met -/

/-- Evaluation meets the parts of the formula, and those alone are there when it is done. What
has been met comes with its parts, so that a formula met before adds none. -/
theorem mem_evaluationFrom {n : Node} (h : n.IsFormula) {met : List Node}
    (hmet : ∀ q ∈ met, ∀ p ∈ q.parts, p ∈ met) {p : Node} :
    p ∈ (n.evaluationFrom met).2 ↔ p ∈ met ∨ p ∈ n.parts := by
  induction h generalizing met p with
  | atom i =>
    rw [Node.evaluationFrom]
    split
    · next hn => exact ⟨.inl, fun hp => hp.elim id (hmet _ hn p)⟩
    · simp [Node.parts, or_comm]
  | neg _ ih | group _ ih =>
    rw [Node.evaluationFrom]
    split
    · next hn => exact ⟨.inl, fun hp => hp.elim id (hmet _ hn p)⟩
    · simp only [Node.parts, List.mem_cons, ih hmet, or_left_comm]
  | @binary l r op _ _ ihl ihr =>
    rw [Node.evaluationFrom]
    split
    · next hn => exact ⟨.inl, fun hp => hp.elim id (hmet _ hn p)⟩
    · have hleft : ∀ q ∈ (l.evaluationFrom met).2, ∀ p ∈ q.parts, p ∈ (l.evaluationFrom met).2 := by
        intro q hq p hp
        rw [ihl hmet] at hq ⊢
        exact hq.imp (fun hq => hmet q hq p hp) (Node.parts_trans hp)
      simp only [Node.parts, List.mem_cons, List.mem_append, ihr hleft, ihl hmet, or_assoc,
        or_left_comm]

/-- **What has been met, atoms apart, is what columns are known for**, before an evaluation and
after it. So the depth of evaluation counts a part as found by comparing where its column is
known. -/
theorem met_iff_known {atoms : List Int} {columns : Columns} (h : Tabulates atoms columns) {n : Node}
    (hn : n.IsFormula) (hatoms : ∀ i ∈ n.atoms, i ∈ atoms) {met : List Node}
    (hmet : ∀ q ∈ met, ∀ p ∈ q.parts, p ∈ met)
    (hsame : ∀ p, (∀ i, p ≠ .atom i) → (p ∈ met ↔ (columns.get? p).isSome)) {p : Node}
    (hp : ∀ i, p ≠ .atom i) :
    p ∈ (n.evaluationFrom met).2 ↔ ((evaluate columns n).2.get? p).isSome := by
  have hrun := evaluates columns n
  have hkeeps := hrun.keeps h
  obtain ⟨column, hcolumn⟩ := hrun.formula h hn hatoms
  rw [mem_evaluationFrom hn hmet, hsame p hp]
  exact ⟨fun hp => hp.elim hkeeps.extending.isSome (hkeeps.tabulates.closed (hkeeps.known hcolumn) p),
    hrun.gains⟩

/-! ## The columns shown -/

variable {t : TruthTable} {n : Node} {column : Column} {layout : List (Node × Column)}

/-- The columns shown belong to formulas, so their nodes compare, and they are laid out. -/
theorem layout_eq (h : Tabulates t.atoms t.columns) :
    t.layout = .ok (Node.arrange (·.1) t.shown.reverse).reverse := by
  have hformula : ∀ entry ∈ t.shown.reverse, entry.1.IsFormula := fun entry hentry =>
    h.formula (OrderedMap.get?_eq_some_iff.2 (List.mem_filter.1 (List.mem_reverse.1 hentry)).1)
  have hsorted := Node.sortBy_eq fun a ha b hb => (hformula a ha).peers (hformula b hb)
  rw [TruthTable.layout, hsorted]
  rfl

theorem layout_perm (h : Tabulates t.atoms t.columns) (hlayout : t.layout = .ok layout) :
    layout.Perm t.shown := by
  obtain rfl := Except.ok.inj ((layout_eq h).symm.trans hlayout)
  exact (List.reverse_perm _).trans ((Node.arrange_perm _ _).trans (List.reverse_perm _))

theorem get_eq_ok_iff :
    t.get n = .ok column ↔ t.columns.get? n = some column ∧ n.isGroup = false := by
  rw [get]
  cases n.isGroup <;> cases t.columns.get? n <;> simp

theorem contains_iff : t.contains n ↔ (t.columns.get? n).isSome ∧ n.isGroup = false := by
  rw [contains, OrderedMap.contains]
  simp

section LaidOut

variable (h : Tabulates t.atoms t.columns) (hlayout : t.layout = .ok layout)

include h hlayout

theorem mem_layout_iff :
    (n, column) ∈ layout ↔ t.columns.get? n = some column ∧ n.isGroup = false := by
  rw [(layout_perm h hlayout).mem_iff, shown, List.mem_filter, ← OrderedMap.get?_eq_some_iff]
  simp

theorem mem_nodes_iff :
    n ∈ layout.map (·.1) ↔ (t.columns.get? n).isSome ∧ n.isGroup = false := by
  rw [List.mem_map, Option.isSome_iff_exists]
  constructor
  · rintro ⟨⟨n, column⟩, hmem, rfl⟩
    obtain ⟨hcolumn, hgroup⟩ := (mem_layout_iff h hlayout).1 hmem
    exact ⟨⟨column, hcolumn⟩, hgroup⟩
  · rintro ⟨⟨column, hcolumn⟩, hgroup⟩
    exact ⟨(n, column), (mem_layout_iff h hlayout).2 ⟨hcolumn, hgroup⟩, rfl⟩

theorem formula_of_mem_nodes (hn : n ∈ layout.map (·.1)) : n.IsFormula := by
  obtain ⟨column, hcolumn⟩ := Option.isSome_iff_exists.1 ((mem_nodes_iff h hlayout).1 hn).1
  exact h.formula hcolumn

theorem nodup_nodes : (layout.map (·.1)).Nodup :=
  (((layout_perm h hlayout).map (·.1)).nodup_iff).2
    (t.columns.nodup_keys.sublist (List.filter_sublist.map _))

theorem layout_descending :
    layout.Pairwise fun a b => Node.compares .lt b.1 a.1 = .ok true := by
  have hpeers : ∀ a ∈ layout, ∀ b ∈ layout, Node.Peers a.1 b.1 := fun a ha b hb =>
    (formula_of_mem_nodes h hlayout (List.mem_map_of_mem ha)).peers
      (formula_of_mem_nodes h hlayout (List.mem_map_of_mem hb))
  have hmem : ∀ a ∈ t.shown.reverse, a ∈ layout := fun a ha =>
    (layout_perm h hlayout).mem_iff.2 (List.mem_reverse.1 ha)
  have hsorted : layout.Pairwise fun a b => Node.compares .le b.1 a.1 = .ok true := by
    obtain rfl := Except.ok.inj ((layout_eq h).symm.trans hlayout)
    exact List.pairwise_reverse.2
      (Node.arrange_sorted fun a ha b hb => hpeers a (hmem a ha) b (hmem b hb))
  have hne : layout.Pairwise fun a b => a.1 ≠ b.1 := List.pairwise_map.1 (nodup_nodes h hlayout)
  refine (hsorted.and hne).imp_of_mem fun {a b} ha hb hab => ?_
  exact ((hpeers b hb a ha).le_iff.1 hab.1).resolve_right (Ne.symm hab.2)

/-- The columns of the atoms come first, in descending order of their numbers, then those of
negations, then those of binary nodes. -/
theorem layout_by_kind (hascending : t.atoms.Pairwise (· < ·)) :
    ∃ negations binaries,
      layout.map (·.1) = t.atoms.reverse.map .atom ++ (negations ++ binaries) ∧
      (∀ n ∈ negations, ∃ x, n = .neg x) ∧ ∀ n ∈ binaries, ∃ l op r, n = .binary l op r := by
  have hf : ∀ n ∈ layout.map (·.1), n.IsFormula := fun n => formula_of_mem_nodes h hlayout
  have hatoms : ∀ i, .atom i ∈ layout.map (·.1) ↔ i ∈ t.atoms := by
    intro i
    rw [mem_nodes_iff h hlayout]
    refine ⟨fun ⟨hi, _⟩ => ?_, fun hi => ⟨h.base i hi, rfl⟩⟩
    obtain ⟨column, hcolumn⟩ := Option.isSome_iff_exists.1 hi
    exact h.among hcolumn i (List.mem_singleton_self i)
  have hdescending : (layout.map (·.1)).Pairwise
      fun a b => Node.compares .lt b a = .ok true :=
    List.pairwise_map.2 (layout_descending h hlayout)
  obtain ⟨atoms, negations, binaries, hall, ha, hneg, hbin⟩ :=
    Node.descending_by_kind hdescending hf fun n hn => ((mem_nodes_iff h hlayout).1 hn).2
  refine ⟨negations, binaries, ?_, hneg, hbin⟩
  rw [hall] at hdescending hatoms hf ⊢
  have hlist : (t.atoms.reverse.map Node.atom).Pairwise
      fun a b => Node.compares .lt b a = .ok true :=
    List.pairwise_map.2 ((List.pairwise_reverse.2 hascending).imp Node.lt_atom)
  have hfirst : ∀ i, .atom i ∈ atoms ↔ i ∈ t.atoms := by
    intro i
    rw [← hatoms i, List.mem_append, List.mem_append]
    refine ⟨.inl, fun hi => hi.resolve_right ?_⟩
    rintro (hi | hi)
    · obtain ⟨x, hx⟩ := hneg _ hi
      cases hx
    · obtain ⟨l, op, r, hx⟩ := hbin _ hi
      cases hx
  have hmem : ∀ n, n ∈ atoms ↔ n ∈ t.atoms.reverse.map Node.atom := by
    intro n
    rw [List.mem_map]
    constructor
    · intro hn
      obtain ⟨i, rfl⟩ := ha n hn
      exact ⟨i, List.mem_reverse.2 ((hfirst i).1 hn), rfl⟩
    · rintro ⟨i, hi, rfl⟩
      exact (hfirst i).2 (List.mem_reverse.1 hi)
  rw [Node.descending_unique (fun n hn => hf n (List.mem_append_left _ hn)) hmem
    (List.pairwise_append.1 hdescending).1 hlist]

end LaidOut

/-! ## Rows and assignments -/

/-- The number of the row in which the atoms have the bits given, the first of them fastest. -/
def rowOf : List Bool → Nat
  | [] => 0
  | b :: bits => b.toNat + 2 * rowOf bits

/-- The first `k` bits of a number, lowest first. -/
def bitsOf (k i : Nat) : List Bool := (List.range k).map i.testBit

theorem bitsOf_succ (k i : Nat) : bitsOf (k + 1) i = i.testBit 0 :: bitsOf k (i / 2) := by
  rw [bitsOf, List.range_succ_eq_map, List.map_cons, List.map_map, bitsOf]
  congr 2
  funext j
  exact Nat.testBit_succ i j

theorem rowOf_lt (bits : List Bool) : rowOf bits < Nat.pow 2 bits.length := by
  induction bits with
  | nil => exact Nat.one_pos
  | cons b bits ih =>
    have hpow : Nat.pow 2 (b :: bits).length = Nat.pow 2 bits.length * 2 := rfl
    have hb := b.toNat_le
    rw [hpow, rowOf]
    omega

theorem bitsOf_rowOf (bits : List Bool) : bitsOf bits.length (rowOf bits) = bits := by
  induction bits with
  | nil => rfl
  | cons b bits ih =>
    have hhalf : (b.toNat + 2 * rowOf bits) / 2 = rowOf bits := by
      have hb : b.toNat < 2 := b.toNat_lt
      omega
    have hlow : (b.toNat + 2 * rowOf bits).testBit 0 = b := by
      rw [Nat.testBit_zero, Nat.add_mul_mod_self_left]
      cases b <;> rfl
    rw [List.length_cons, bitsOf_succ, rowOf, hlow, hhalf, ih]

theorem rowOf_bitsOf {k i : Nat} (h : i < Nat.pow 2 k) : rowOf (bitsOf k i) = i := by
  induction k generalizing i with
  | zero => exact (Nat.lt_one_iff.1 h).symm
  | succ k ih =>
    have hpow : Nat.pow 2 (k + 1) = Nat.pow 2 k * 2 := rfl
    have hlow : (i.testBit 0).toNat = i % 2 := by
      rw [Nat.testBit_zero]
      rcases Nat.mod_two_eq_zero_or_one i with h | h <;> rw [h] <;> rfl
    rw [bitsOf_succ, rowOf, ih (by omega), hlow]
    omega

theorem testBit_iff_mod (i j : Nat) :
    i.testBit j = true ↔ i % Nat.pow 2 (j + 1) + 1 > Nat.pow 2 (j + 1) / 2 := by
  have hpow : Nat.pow 2 (j + 1) = Nat.pow 2 j * 2 := rfl
  have hmod : i % (Nat.pow 2 j * 2) = i % Nat.pow 2 j + Nat.pow 2 j * (i / Nat.pow 2 j % 2) :=
    Nat.mod_mul
  have hlt : i % Nat.pow 2 j < Nat.pow 2 j := Nat.mod_lt i (Nat.pow_pos Nat.two_pos)
  have htest : i.testBit j = decide (i / Nat.pow 2 j % 2 = 1) := Nat.testBit_eq_decide_div_mod_eq
  rw [htest, decide_eq_true_iff, hpow, hmod, Nat.mul_div_cancel _ Nat.two_pos]
  rcases Nat.mod_two_eq_zero_or_one (i / Nat.pow 2 j) with h | h <;> rw [h] <;> omega

/-- What the column shown for an expression has in a row. -/
def cell? (t : TruthTable) (n : Node) (i : Nat) : Option UInt8 := (t.get n).toOption.bind (·[i]?)

/-- What the columns of the atoms have in a row, in the order of the atoms. -/
def atomRow (t : TruthTable) (i : Nat) : List (Option UInt8) :=
  t.atoms.map fun a => t.cell? (.atom a) i

/-- Truth values as a row shows them. -/
def asCells (bits : List Bool) : List (Option UInt8) := bits.map fun b => some b.toUInt8

theorem asCells_inj {bits bits' : List Bool} : asCells bits = asCells bits' ↔ bits = bits' := by
  refine List.map_inj_right fun a b h => ?_
  cases a <;> cases b <;> first | rfl | cases h

theorem cell?_atom (htab : Tabulates t.atoms t.columns) (hnodup : t.atoms.Nodup) {i j : Nat}
    {a : Int} (ha : t.atoms[j]? = some a) (hi : i < t.rows) :
    t.cell? (.atom a) i = some (i.testBit j).toUInt8 := by
  obtain ⟨column, hcolumn⟩ := Option.isSome_iff_exists.1 (htab.base a (List.mem_of_getElem? ha))
  have hget : t.get (.atom a) = .ok column := get_eq_ok_iff.2 ⟨hcolumn, rfl⟩
  obtain ⟨hj, rfl⟩ := List.getElem?_eq_some_iff.1 ha
  rw [cell?, hget]
  change column[i]? = _
  rw [htab.values hcolumn, getElem?_truthColumn _ hi, Node.holds_atom, assignment,
    hnodup.idxOf_getElem j hj]

theorem atomRow_eq (htab : Tabulates t.atoms t.columns) (hnodup : t.atoms.Nodup) {i : Nat}
    (hi : i < t.rows) : t.atomRow i = asCells (bitsOf t.atoms.length i) := by
  refine List.ext_getElem (by simp [atomRow, asCells, bitsOf]) fun j hj _ => ?_
  rw [atomRow, List.length_map] at hj
  simp only [atomRow, asCells, bitsOf, List.getElem_map, List.getElem_range]
  exact cell?_atom htab hnodup (List.getElem?_eq_getElem hj) hi

/-- An assignment to the atoms is shown in one row. -/
theorem exists_one_row (htab : Tabulates t.atoms t.columns) (hnodup : t.atoms.Nodup)
    {bits : List Bool} (hbits : bits.length = t.atoms.length) :
    ∃ i, (i < t.rows ∧ t.atomRow i = asCells bits) ∧
      ∀ i' < t.rows, t.atomRow i' = asCells bits → i' = i := by
  have hrow : rowOf bits < t.rows := by
    have hlt := rowOf_lt bits
    rwa [hbits] at hlt
  refine ⟨rowOf bits, ⟨hrow, ?_⟩, fun i' hi' hbits' => ?_⟩
  · rw [atomRow_eq htab hnodup hrow, ← hbits, bitsOf_rowOf]
  · rw [atomRow_eq htab hnodup hi', asCells_inj] at hbits'
    rw [← hbits', rowOf_bitsOf hi']

theorem cell?_atom_mod (htab : Tabulates t.atoms t.columns) (hnodup : t.atoms.Nodup) {i j : Nat}
    {a : Int} (ha : t.atoms[j]? = some a) (hi : i < t.rows) :
    t.cell? (.atom a) i =
      some (if i % Nat.pow 2 (j + 1) + 1 > Nat.pow 2 (j + 1) / 2 then 1 else 0) := by
  rw [cell?_atom htab hnodup ha hi]
  by_cases hbit : i.testBit j = true
  · rw [hbit, if_pos ((testBit_iff_mod i j).1 hbit)]
    rfl
  · rw [if_neg (mt (testBit_iff_mod i j).2 hbit), Bool.eq_false_iff.2 hbit]
    rfl

/-- **A truth table shows every sub-expression once, and every assignment once.** A formula
has a table. It lists the atoms that occur in the formula, ascending, and has 2^k rows for k
of them. The columns shown, which are also those that can be asked for, are those of the
sub-expressions other than groups, each once. They are laid out in strictly descending order:
the atoms, the one of the highest index first, then negations, then binary nodes. Read row by
row, the columns of the atoms show nothing but assignments to them, and each in exactly one
row. Atom number `j` is 1 in row `i` if and only if (i mod 2^(j+1)) + 1 > 2^(j+1) / 2. -/
theorem shows_everything_once {e : Node} (he : e.IsFormula) (symbols : Symbols) :
    ∃ t layout, ofFormula e symbols = .ok t ∧ t.layout = .ok layout ∧
      t.atoms.Pairwise (· < ·) ∧ (∀ i, i ∈ t.atoms ↔ i ∈ e.atoms) ∧
      t.rows = Nat.pow 2 t.atoms.length ∧ (∀ shown ∈ layout, shown.2.length = t.rows) ∧
      (layout.map (·.1)).Nodup ∧
      (∀ n, n ∈ layout.map (·.1) ↔ n ∈ e.parts ∧ n.isGroup = false) ∧
      (∀ n, t.contains n ↔ n ∈ layout.map (·.1)) ∧
      (∀ n column, t.get n = .ok column ↔ (n, column) ∈ layout) ∧
      layout.Pairwise (fun a b => Node.compares .lt b.1 a.1 = .ok true) ∧
      (∃ negations binaries,
        layout.map (·.1) = t.atoms.reverse.map .atom ++ (negations ++ binaries) ∧
        (∀ n ∈ negations, ∃ x, n = .neg x) ∧ ∀ n ∈ binaries, ∃ l op r, n = .binary l op r) ∧
      (∀ i < t.rows, ∃ bits, bits.length = t.atoms.length ∧ t.atomRow i = asCells bits) ∧
      (∀ bits, bits.length = t.atoms.length →
        ∃ i, (i < t.rows ∧ t.atomRow i = asCells bits) ∧
          ∀ i' < t.rows, t.atomRow i' = asCells bits → i' = i) ∧
      ∀ j a, t.atoms[j]? = some a → ∀ i < t.rows, t.cell? (.atom a) i =
        some (if i % Nat.pow 2 (j + 1) + 1 > Nat.pow 2 (j + 1) / 2 then 1 else 0) := by
  obtain ⟨t, ht, -, hatoms, htab, -⟩ := ofFormula_tabulates he symbols
  have hascending : t.atoms.Pairwise (· < ·) := by
    rw [hatoms]
    exact insertAll_ascending .nil
  have hnodup : t.atoms.Nodup := hascending.imp fun h => Int.ne_of_lt h
  have hmem : ∀ i, i ∈ t.atoms ↔ i ∈ e.atoms := by
    intro i
    rw [hatoms, mem_insertAll]
    simp
  obtain ⟨layout, hlayout⟩ : ∃ layout, t.layout = .ok layout := ⟨_, layout_eq htab⟩
  have hnodes : ∀ n, n ∈ layout.map (·.1) ↔ n ∈ e.parts ∧ n.isGroup = false := by
    intro n
    rw [mem_nodes_iff htab hlayout, known_iff he ht]
  refine ⟨t, layout, ht, hlayout, hascending, hmem, rfl, ?_, nodup_nodes htab hlayout, hnodes,
    fun n => contains_iff.trans (mem_nodes_iff htab hlayout).symm,
    fun n column => get_eq_ok_iff.trans (mem_layout_iff htab hlayout).symm,
    layout_descending htab hlayout, layout_by_kind htab hlayout hascending, fun i hi => ?_,
    fun bits hbits => exists_one_row htab hnodup hbits,
    fun j a ha i hi => cell?_atom_mod htab hnodup ha hi⟩
  · rintro ⟨n, column⟩ hentry
    rw [htab.values ((mem_layout_iff htab hlayout).1 hentry).1, length_truthColumn]
    rfl
  · exact ⟨_, by simp [bitsOf], atomRow_eq htab hnodup hi⟩

/-- A conjunction that occurs twice, once in parentheses, has one column. -/
theorem shows_everything_once_shared :
    let both := Node.binary (.atom 1) .conj (.atom 0)
    let formula := Node.binary (.group both) .cond (.neg both)
    formula.IsFormula ∧ ∃ t layout, ofFormula formula .empty = .ok t ∧ t.layout = .ok layout ∧
      t.rows = 4 ∧ layout.map (·.1) = [.atom 1, .atom 0, .neg both, both, formula] ∧
      t.contains (.group both) = false ∧
      ∃ i, (i < 4 ∧ t.atomRow i = asCells [true, false]) ∧
        ∀ i' < 4, t.atomRow i' = asCells [true, false] → i' = i := by
  intro both formula
  have hformula : formula.IsFormula := by decide
  obtain ⟨t, layout, ht, hlayout, -, -, hrows, -, -, hnodes, hcontains, -, -, -, -, hbits, -⟩ :=
    shows_everything_once hformula .empty
  have hseen : (ofFormula formula .empty).toOption.bind (fun t =>
      t.layout.toOption.map fun layout => (t.atoms, layout.map (·.1))) =
      some ([0, 1], [.atom 1, .atom 0, .neg both, both, formula]) := by decide +kernel
  rw [ht] at hseen
  change (t.layout.toOption.map fun layout => (t.atoms, layout.map (·.1))) = _ at hseen
  rw [hlayout] at hseen
  obtain ⟨hatoms, hnodesSeen⟩ := Prod.mk.inj (Option.some.inj hseen)
  rw [hatoms] at hrows hbits
  obtain ⟨i, ⟨hi, hrow⟩, hunique⟩ := hbits [true, false] rfl
  rw [hrows] at hi hunique
  refine ⟨hformula, t, layout, ht, hlayout, hrows, hnodesSeen, ?_, i, ⟨hi, hrow⟩, hunique⟩
  rw [Bool.eq_false_iff, Ne, hcontains, hnodes]
  rintro ⟨-, hgroup⟩
  cases hgroup

end TruthTable

end Propositional
