/-
What formulas mean: the truth value of a formula once each atom has one. A formula with
expressions put for its atoms is true where the formula is true of the truth values of those
expressions (`holds_subst`), and both depend on the atoms that occur alone.
-/
import Propositional.Rewriting.Match

namespace Propositional.Node

/-- The truth value of a formula under a valuation of its atoms. Parentheses do
not matter; a node that is no formula counts as false. -/
def holds (v : Int → Bool) : Node → Bool
  | atom i => v i
  | neg x => !x.holds v
  | group x => x.holds v
  | binary l op r => op.apply (l.holds v) (r.holds v)
  | _ => false

@[simp] theorem holds_atom (v : Int → Bool) (i : Int) : (atom i).holds v = v i := rfl

@[simp] theorem holds_neg (v : Int → Bool) (x : Node) : (neg x).holds v = !x.holds v := rfl

@[simp] theorem holds_group (v : Int → Bool) (x : Node) : (group x).holds v = x.holds v := rfl

@[simp] theorem holds_binary (v : Int → Bool) (l r : Node) (op : Connective) :
    (binary l op r).holds v = op.apply (l.holds v) (r.holds v) := rfl

/-- The rules that keep the meaning: both sides have the same truth value under
every valuation. -/
def IsSoundRule : Node → Prop
  | equivalence lhs rhs => ∀ v, lhs.holds v = rhs.holds v
  | _ => False

/-! ## Substitution -/

theorem holds_subst (v : Int → Bool) (σ : Int → Node) {n : Node} (h : n.IsFormula) :
    (n.subst σ).holds v = n.holds fun i => (σ i).holds v := by
  induction h with
  | atom i => rfl
  | neg _ ih => simp only [subst, holds_neg, ih]
  | group _ ih => simp only [subst, holds_group, ih]
  | binary op _ _ ihl ihr => simp only [subst, holds_binary, ihl, ihr]

/-- Only the values of the atoms that occur matter. -/
theorem holds_congr {v w : Int → Bool} {n : Node} (h : ∀ i ∈ n.atoms, v i = w i) :
    n.holds v = n.holds w := by
  induction n with
  | atom i => exact h i (List.mem_singleton_self i)
  | neg x ih | group x ih => simp only [holds_neg, holds_group, ih h]
  | binary l op r ihl ihr =>
    have hl := ihl fun i hi => h i (List.mem_append_left _ hi)
    have hr := ihr fun i hi => h i (List.mem_append_right _ hi)
    rw [holds_binary, holds_binary, hl, hr]
  | equivalence | ruleName | application | binding | stray => rfl

/-- Only what is put for the atoms that occur matters. -/
theorem subst_congr {σ τ : Int → Node} {n : Node} (h : ∀ i ∈ n.atoms, σ i = τ i) :
    n.subst σ = n.subst τ := by
  induction n with
  | atom i => exact h i (List.mem_singleton_self i)
  | neg x ih | group x ih => simp only [subst, ih h]
  | binary l op r ihl ihr =>
    have hl := ihl fun i hi => h i (List.mem_append_left _ hi)
    have hr := ihr fun i hi => h i (List.mem_append_right _ hi)
    rw [subst, subst, hl, hr]
  | equivalence | ruleName | application | binding | stray => rfl

/-- A formula and an instance of it determine what has been put for its atoms. -/
theorem subst_inj {σ τ : Int → Node} {n : Node} (hn : n.IsFormula) (h : n.subst σ = n.subst τ) :
    ∀ i ∈ n.atoms, σ i = τ i := by
  induction hn with
  | atom i =>
    intro j hj
    rwa [List.mem_singleton.1 hj]
  | neg _ ih => exact ih (neg.inj h)
  | group _ ih => exact ih (group.inj h)
  | binary op _ _ ihl ihr =>
    obtain ⟨hl, -, hr⟩ := binary.inj h
    intro i hi
    exact (List.mem_append.1 hi).elim (ihl hl i) (ihr hr i)

/-- The node with its atoms numbered anew. -/
abbrev renumbered (ρ : Int → Int) (n : Node) : Node := n.subst fun i => .atom (ρ i)

theorem subst_atom (n : Node) : n.subst atom = n := by
  induction n with
  | neg x ih | group x ih => rw [subst, ih]
  | binary l op r ihl ihr => rw [subst, ihl, ihr]
  | atom | equivalence | ruleName | application | binding | stray => rfl

theorem subst_subst (σ τ : Int → Node) (n : Node) :
    (n.subst σ).subst τ = n.subst fun i => (σ i).subst τ := by
  induction n with
  | atom i => rfl
  | neg x ih | group x ih => simp only [subst, ih]
  | binary l op r ihl ihr => simp only [subst, ihl, ihr]
  | equivalence | ruleName | application | binding | stray => rfl

theorem renumbered_id (n : Node) : n.renumbered id = n := n.subst_atom

theorem IsFormula.subst {σ : Int → Node} {n : Node} (h : n.IsFormula)
    (hσ : ∀ i ∈ n.atoms, (σ i).IsFormula) : (n.subst σ).IsFormula := by
  induction h with
  | atom i => exact hσ i (List.mem_singleton_self i)
  | neg _ ih => exact .neg (ih hσ)
  | group _ ih => exact .group (ih hσ)
  | binary op _ _ ihl ihr =>
    exact .binary op (ihl fun i hi => hσ i (List.mem_append_left _ hi))
      (ihr fun i hi => hσ i (List.mem_append_right _ hi))

/-- The atoms of an instance are those of what has been put for the atoms. -/
theorem mem_atoms_subst {σ : Int → Node} {n : Node} (hn : n.IsFormula) {i : Int} :
    i ∈ (n.subst σ).atoms ↔ ∃ j ∈ n.atoms, i ∈ (σ j).atoms := by
  induction hn with
  | atom j => simp [subst, atoms]
  | neg _ ih => exact ih
  | group _ ih => exact ih
  | binary op _ _ ihl ihr => simp only [subst, atoms, List.mem_append, ihl, ihr, or_and_right, exists_or]

end Propositional.Node
