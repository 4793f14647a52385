/-
When a truth table has no answer. Evaluation over the atoms of a table comes to an end at
another atom, and at a node that no formula is made of; `Node.blocks` tells these from other
nodes. What has been evaluated before makes no difference: every column known is that of a
formula over the atoms of the table (`Tabulates`), so that a tree with a column has no such
part, and a tree with such a part is followed down to the first of them (`Evaluates.fault_eq`).
The stack that collects the atoms stops where evaluation would (`ofFormula_error_iff`), so that
a table whose atoms have been collected is made.
-/
import Propositional.Proofs.TruthTable.Enumeration

namespace Propositional

namespace Node

/-- The nodes at which evaluation over some atoms ends: other atoms, and nodes that no
formula is made of. -/
def blocks (atoms : List Int) : Node → Bool
  | atom i => !atoms.contains i
  | n => !n.isProper

theorem blocks_congr {xs ys : List Int} (h : ∀ i, i ∈ xs ↔ i ∈ ys) : blocks xs = blocks ys := by
  funext n
  cases n with
  | atom i => simp [blocks, h i]
  | _ => rfl

theorem unblocked_iff {atoms : List Int} {n : Node} :
    (∀ p ∈ n.parts, p.blocks atoms = false) ↔ n.IsFormula ∧ ∀ i ∈ n.atoms, i ∈ atoms := by
  constructor
  · intro h
    refine ⟨isFormula_iff_parts.2 fun p hp => ?_, fun i hi => ?_⟩
    · have hpart := h p hp
      cases p with
      | atom | neg | group | binary => rfl
      | equivalence | ruleName | application | binding | stray => cases hpart
    · simpa [blocks] using h _ (atom_mem_parts hi)
  · rintro ⟨hf, ho⟩ p hp
    have hproper := isFormula_iff_parts.1 hf p hp
    cases p with
    | atom i => simpa [blocks] using ho i (mem_atoms_of_part hp)
    | neg | group | binary => rfl
    | equivalence | ruleName | application | binding | stray => cases hproper

end Node

namespace TruthTable

variable {atoms : List Int} {columns after : Columns} {n : Node}

theorem Evaluates.unblocked {column : Column} (hev : Evaluates columns n (.ok column) after)
    (h : Tabulates atoms columns) : ∀ p ∈ n.parts, p.blocks atoms = false := by
  have hkeeps := hev.keeps h
  have hknown := hkeeps.known rfl
  exact Node.unblocked_iff.2 ⟨hkeeps.tabulates.formula hknown, hkeeps.tabulates.among hknown⟩

/-- Evaluation fails at the first part, from left to right, at which it ends; columns known
before do not hide it. -/
theorem Evaluates.fault_eq {answer : Except Fault Column} {fault : Fault}
    (hev : Evaluates columns n answer after) (h : Tabulates atoms columns)
    (hfault : answer = .error fault) :
    ∃ p, n.parts.find? (·.blocks atoms) = some p ∧ fault = .notEvaluable p := by
  induction hev with
  | known | neg | group | binary => cases hfault
  | negFault _ ih | groupFault _ ih => exact ih h hfault
  | leftFault _ ih =>
    obtain ⟨p, hp, rfl⟩ := ih h hfault
    refine ⟨p, ?_, rfl⟩
    rw [Node.parts, List.find?_cons_of_neg (by simp [Node.blocks, Node.isProper]),
      List.find?_append, hp, Option.some_or]
  | rightFault hl _ _ ihr =>
    obtain ⟨p, hp, rfl⟩ := ihr (hl.keeps h).tabulates hfault
    have hleft := List.find?_eq_none.2 fun q hq => Bool.eq_false_iff.1 (hl.unblocked h q hq)
    refine ⟨p, ?_, rfl⟩
    rw [Node.parts, List.find?_cons_of_neg (by simp [Node.blocks, Node.isProper]),
      List.find?_append, hleft, Option.none_or, hp]
  | @improper columns n hnone hsimple =>
    cases hfault
    have hblocks : n.blocks atoms = true := by
      cases n with
      | atom i =>
        rw [Node.blocks, Bool.not_eq_true', ← Bool.not_eq_true, List.contains_iff_mem]
        intro hi
        have hbase := h.base i hi
        rw [hnone] at hbase
        cases hbase
      | neg | group | binary => cases hsimple
      | equivalence | ruleName | application | binding | stray => rfl
    have hparts : n.parts = [n] := by
      cases n with
      | neg | group | binary => cases hsimple
      | _ => rfl
    exact ⟨n, by rw [hparts, List.find?_cons_of_pos hblocks], rfl⟩

theorem Evaluates.ok_iff {answer : Except Fault Column} (hev : Evaluates columns n answer after)
    (h : Tabulates atoms columns) :
    (∃ column, answer = .ok column) ↔ ∀ p ∈ n.parts, p.blocks atoms = false := by
  constructor
  · rintro ⟨column, rfl⟩
    exact hev.unblocked h
  · intro hfree
    obtain ⟨hf, ho⟩ := Node.unblocked_iff.1 hfree
    exact hev.formula h hf ho

/-! ## Queries -/

/-- How a tree `x` is evaluated in a table `t` with columns for formulas over some atoms. -/
structure Responds (atoms : List Int) (t : TruthTable) (x : Node) : Prop where
  /-- Evaluation fails if and only if `x` has a part at which it ends. -/
  fails : (∃ p, (t.eval x).1 = .error (.notEvaluable p)) ↔ ∃ p ∈ x.parts, p.blocks atoms = true
  /-- It succeeds if and only if there is none. -/
  succeeds : (∃ column, (t.eval x).1 = .ok column) ↔ ∀ p ∈ x.parts, p.blocks atoms = false
  /-- The fault names the first such part. -/
  fault : ∀ fault, (t.eval x).1 = .error fault →
    ∃ p, x.parts.find? (·.blocks atoms) = some p ∧ fault = .notEvaluable p
  /-- The column is that of the truth values of `x`. -/
  column : ∀ column, (t.eval x).1 = .ok column → column.length = t.rows ∧
    ∀ i < t.rows, column[i]? = some (x.holds (assignment t.atoms i)).toUInt8
  /-- No known column is changed or lost. -/
  kept : Extends t.columns (t.eval x).2.columns
  /-- With success, columns for the parts of `x` are added and no others. -/
  gained : ∀ column, (t.eval x).1 = .ok column → ∀ p,
    ((t.eval x).2.columns.get? p).isSome ↔ (t.columns.get? p).isSome ∨ p ∈ x.parts
  /-- After a fault, columns have been added for such parts of `x` alone as can be evaluated. -/
  left : ∀ fault, (t.eval x).1 = .error fault → ∀ p, ((t.eval x).2.columns.get? p).isSome →
    (t.columns.get? p).isSome ∨ p ∈ x.parts ∧ ∃ column, (t.eval p).1 = .ok column

theorem Responds.congr {xs ys : List Int} {t : TruthTable} {x : Node} (h : Responds xs t x)
    (hsame : ∀ i, i ∈ xs ↔ i ∈ ys) : Responds ys t x := by
  have hblocks := Node.blocks_congr hsame
  exact ⟨hblocks ▸ h.fails, hblocks ▸ h.succeeds, hblocks ▸ h.fault, h.column, h.kept, h.gained,
    h.left⟩

theorem Tabulates.responds {t : TruthTable} (h : Tabulates t.atoms t.columns) (x : Node) :
    Responds t.atoms t x := by
  have hev : Evaluates t.columns x (t.eval x).1 (t.eval x).2.columns := evaluates t.columns x
  have hkeeps := hev.keeps h
  constructor
  case fails =>
    constructor
    · rintro ⟨p, hp⟩
      obtain ⟨q, hq, -⟩ := hev.fault_eq h hp
      exact ⟨q, List.mem_of_find?_eq_some hq, List.find?_some hq⟩
    · rintro ⟨p, hp, hblocks⟩
      cases hanswer : (t.eval x).1 with
      | ok column =>
        have hfree := (hev.ok_iff h).1 ⟨column, hanswer⟩ p hp
        rw [hblocks] at hfree
        cases hfree
      | error fault =>
        obtain ⟨q, -, rfl⟩ := hev.fault_eq h hanswer
        exact ⟨q, rfl⟩
  case succeeds => exact hev.ok_iff h
  case fault => exact fun fault hfault => hev.fault_eq h hfault
  case column =>
    intro column hcolumn
    rw [hkeeps.tabulates.values (hkeeps.known hcolumn)]
    exact ⟨length_truthColumn .., fun i hi => getElem?_truthColumn x hi⟩
  case kept => exact hkeeps.extending
  case gained =>
    intro column hcolumn p
    refine ⟨hev.gains, ?_⟩
    rintro (hp | hp)
    · exact hkeeps.extending.isSome hp
    · exact hkeeps.tabulates.closed (hkeeps.known hcolumn) p hp
  case left =>
    intro fault _ p hp
    refine (hev.gains hp).imp_right fun hpart => ⟨hpart, ?_⟩
    obtain ⟨column, hcolumn⟩ := Option.isSome_iff_exists.1 hp
    have hevp : Evaluates t.columns p (t.eval p).1 (t.eval p).2.columns := evaluates t.columns p
    exact hevp.formula h (hkeeps.tabulates.formula hcolumn) (hkeeps.tabulates.among hcolumn)

theorem ofFormula_error_iff {e : Node} {symbols : Symbols} {fault : Fault} :
    ofFormula e symbols = .error fault ↔
      ∃ p, e.parts.find? (!·.isProper) = some p ∧ fault = .notEvaluable p := by
  cases hfind : e.parts.find? (!·.isProper) with
  | some p =>
    have herror : ofFormula e symbols = .error (.notEvaluable p) := by
      rw [ofFormula, collectAtoms_eq, hfind]
      rfl
    rw [herror]
    constructor
    · intro h
      cases h
      exact ⟨p, rfl, rfl⟩
    · rintro ⟨q, hq, rfl⟩
      cases hq
      rfl
  | none =>
    have he : e.IsFormula := Node.isFormula_iff_parts.2 (by simpa using hfind)
    obtain ⟨t, ht, -⟩ := ofFormula_tabulates he symbols
    rw [ht]
    constructor
    · intro h
      cases h
    · rintro ⟨p, hp, -⟩
      cases hp

/-- **Evaluation fails exactly where it must, whatever has been evaluated before.** There is
no table for a tree if and only if some part of it is none that formulas are made of; once the
atoms have been collected, evaluating the tree does not fail any more. In the table of a
formula, after whatever queries, evaluating a tree fails if and only if the tree has a part
that is none that formulas are made of or an atom that the formula does not have. Otherwise
the answer is the column of the tree, and columns are added for its parts and no others. After
a fault there are no columns more than before but for parts of the tree that can be evaluated
themselves. -/
theorem evaluation_fails_where_blocked (e : Node) (symbols : Symbols) :
    ((∃ fault, ofFormula e symbols = .error fault) ↔ ∃ p ∈ e.parts, p.isProper = false) ∧
    (∀ fault, ofFormula e symbols = .error fault →
      ∃ p, e.parts.find? (!·.isProper) = some p ∧ fault = .notEvaluable p) ∧
    (∀ atoms, collectAtoms e = .ok atoms →
      ∃ column, (evaluate (atomColumns atoms) e).1 = .ok column) ∧
    ∀ t, ofFormula e symbols = .ok t →
      ∀ queries x, (t.queried queries).rows = t.rows ∧ Responds e.atoms (t.queried queries) x := by
  refine ⟨?_, fun fault hfault => ofFormula_error_iff.1 hfault, fun atoms hatoms => ?_,
    fun t ht queries x => ?_⟩
  · simp only [ofFormula_error_iff]
    constructor
    · rintro ⟨_, p, hp, -⟩
      exact ⟨p, List.mem_of_find?_eq_some hp, by simpa using List.find?_some hp⟩
    · rintro ⟨p, hp, hproper⟩
      have hsome : (e.parts.find? (!·.isProper)).isSome :=
        List.find?_isSome.2 ⟨p, hp, by simp [hproper]⟩
      obtain ⟨q, hq⟩ := Option.isSome_iff_exists.1 hsome
      exact ⟨_, q, hq, rfl⟩
  · obtain ⟨he, rfl⟩ := isFormula_of_collectAtoms hatoms
    have hnodup : (insertAll [] e.atoms).Nodup :=
      (insertAll_ascending .nil).imp fun h => Int.ne_of_lt h
    refine (evaluates _ e).formula (tabulates_atomColumns hnodup) he fun i hi => ?_
    exact mem_insertAll.2 (.inr hi)
  · obtain ⟨_, hcollect, -⟩ := ofFormula_eq_ok ht
    obtain ⟨he, hatoms⟩ := isFormula_of_collectAtoms hcollect
    obtain ⟨t', ht', -, -, htab, -⟩ := ofFormula_tabulates he symbols
    rw [ht] at ht'
    cases ht'
    obtain ⟨-, hsame, htab', -⟩ := queried_keeps htab queries
    refine ⟨by rw [rows, rows, hsame], ?_⟩
    refine Responds.congr (Tabulates.responds (hsame.symm ▸ htab') x) fun i => ?_
    rw [hsame, hatoms, mem_insertAll]
    simp

/-- A conjunction whose right side has an atom from outside the table before the name of a
rule. Whatever was evaluated before, that atom is the fault; the left side can be evaluated all
the same. -/
theorem evaluation_fails_where_blocked_right :
    let formula := Node.binary (.atom 4) .cond (.atom 1)
    let x := Node.binary (.neg (.atom 4)) .conj (.binary (.atom 9) .disj (.ruleName 0))
    ∃ t, ofFormula formula .empty = .ok t ∧ ∀ queries,
      ((t.queried queries).eval x).1 = .error (.notEvaluable (.atom 9)) ∧
        ∃ column, ((t.queried queries).eval (.neg (.atom 4))).1 = .ok column := by
  intro formula x
  obtain ⟨hfails, -, -, hresponds⟩ := evaluation_fails_where_blocked formula .empty
  cases ht : ofFormula formula .empty with
  | error fault =>
    obtain ⟨p, hp, hproper⟩ := hfails.1 ⟨fault, ht⟩
    have hall : ∀ p ∈ formula.parts, p.isProper = true := by decide
    rw [hall p hp] at hproper
    cases hproper
  | ok t =>
    refine ⟨t, rfl, fun queries => ?_⟩
    have hx := (hresponds t ht queries x).2
    have hneg := (hresponds t ht queries (.neg (.atom 4))).2
    refine ⟨?_, hneg.succeeds.2 (by decide)⟩
    obtain ⟨p, hp⟩ := hx.fails.2 ⟨.atom 9, by decide, by decide⟩
    obtain ⟨q, hfind, hfault⟩ := hx.fault _ hp
    cases hfind
    cases hfault
    exact hp

end TruthTable

end Propositional
