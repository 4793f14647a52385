/-
The limit on nesting. Reading, evaluating, rewriting and writing a formula go as
deep as the formula is nested; a line that goes deeper than the limit is refused.
Evaluating goes deeper where a part occurs again, for it is found by comparing
(`evaluationFrom`). The depth of an expression that rewriting has built is tested
from left to right and only as far as the limit, for it may have more nodes than
can be visited (`textOverruns_iff`, `levelsOverrun_iff`).
-/
import Propositional.Node

namespace Propositional

namespace Nesting

/-- The deepest level allowed. Where mismatches are described in a log as they are
met, these descriptions count as well. -/
structure Bound where
  deepest : Nat
  logged : Bool
  deriving DecidableEq, Repr, Inhabited

/-- The bound for what is done so many levels down. -/
def Bound.below (bound : Bound) (levels : Nat) : Bound :=
  { bound with deepest := bound.deepest - levels }

@[simp] theorem Bound.below_zero (bound : Bound) : bound.below 0 = bound := rfl

@[simp] theorem Bound.deepest_below (bound : Bound) (levels : Nat) :
    (bound.below levels).deepest = bound.deepest - levels := rfl

/-- A bound, if there is one. -/
abbrev Limit := Option Bound

/-- The limit for what is done so many levels down. -/
def Limit.below (limit : Limit) (levels : Nat) : Limit := limit.map (·.below levels)

/-- Whether a depth lies beyond the limit. -/
def Limit.exceededBy (limit : Limit) (depth : Nat) : Bool :=
  match limit with
  | none => false
  | some bound => bound.deepest < depth

@[simp] theorem exceededBy_none (depth : Nat) : Limit.exceededBy none depth = false := rfl

theorem exceededBy_max (limit : Limit) (m n : Nat) :
    limit.exceededBy (max m n) = (limit.exceededBy m || limit.exceededBy n) := by
  cases limit with
  | none => rfl
  | some bound =>
    rw [Bool.eq_iff_iff, Bool.or_eq_true]
    simp only [Limit.exceededBy, decide_eq_true_eq]
    omega

/-- The limit in force unless another one is set. -/
def standard : Limit := some ⟨1000, false⟩

/-- The limit in force where mismatches are described in a log. -/
def withLog : Limit := some ⟨1000, true⟩

end Nesting

namespace Node

/-- How deep the work of writing a node goes: two levels for each negation and
each connective, one for each pair of parentheses and each other node. -/
def textDepth : Node → Nat
  | neg x => x.textDepth + 2
  | group x => x.textDepth + 1
  | binary l _ r => max l.textDepth r.textDepth + 2
  | equivalence l r | application l r | binding l r => max l.textDepth r.textDepth + 1
  | atom _ | ruleName _ | stray _ => 1

/-- Whether writing a node goes deeper than `deepest`. -/
def textOverruns (deepest : Nat) : Node → Bool
  | neg x => x.textOverruns (deepest - 2)
  | group x => x.textOverruns (deepest - 1)
  | binary l _ r => l.textOverruns (deepest - 2) || r.textOverruns (deepest - 2)
  | equivalence l r | application l r | binding l r =>
    l.textOverruns (deepest - 1) || r.textOverruns (deepest - 1)
  | atom _ | ruleName _ | stray _ => deepest < 1

theorem textDepth_pos (n : Node) : 0 < n.textDepth := by
  cases n <;> simp [textDepth]

theorem textOverruns_iff {deepest : Nat} {n : Node} :
    n.textOverruns deepest ↔ deepest < n.textDepth := by
  induction n generalizing deepest with
  | atom | ruleName | stray => simp [textOverruns, textDepth]
  | neg x ih | group x ih =>
    have := x.textDepth_pos
    rw [textOverruns, ih, textDepth]
    omega
  | binary l _ r ihl ihr | equivalence l r ihl ihr | application l r ihl ihr
  | binding l r ihl ihr =>
    have := l.textDepth_pos
    have := r.textDepth_pos
    rw [textOverruns, Bool.or_eq_true, ihl, ihr, textDepth]
    omega

/-- Whether a node has more levels than `deepest`. -/
def levelsOverrun (deepest : Nat) : Node → Bool
  | neg x | group x => x.levelsOverrun (deepest - 1)
  | binary l _ r | equivalence l r | application l r | binding l r =>
    l.levelsOverrun (deepest - 1) || r.levelsOverrun (deepest - 1)
  | atom _ | ruleName _ | stray _ => deepest < 1

theorem levels_pos (n : Node) : 0 < n.levels := by
  cases n <;> simp [levels]

theorem levelsOverrun_iff {deepest : Nat} {n : Node} :
    n.levelsOverrun deepest ↔ deepest < n.levels := by
  induction n generalizing deepest with
  | atom | ruleName | stray => simp [levelsOverrun, levels]
  | neg x ih | group x ih =>
    have := x.levels_pos
    rw [levelsOverrun, ih, levels]
    omega
  | binary l _ r ihl ihr | equivalence l r ihl ihr | application l r ihl ihr
  | binding l r ihl ihr =>
    have := l.levels_pos
    have := r.levels_pos
    rw [levelsOverrun, Bool.or_eq_true, ihl, ihr, levels]
    omega

/-- How deep the evaluation of a node goes after that of the nodes in `met`, and all
nodes met then. What has been met before is not evaluated again: it is found by
comparing, which takes three levels for each of its own. -/
def evaluationFrom (met : List Node) (n : Node) : Nat × List Node :=
  if n ∈ met then (3 * n.levels + 1, met)
  else
    match n with
    | neg x | group x =>
      let (depth, met) := evaluationFrom met x
      (depth + 1, n :: met)
    | binary l _ r =>
      let (left, met) := evaluationFrom met l
      let (right, met) := evaluationFrom met r
      (max left right + 1, n :: met)
    | atom _ | equivalence .. | ruleName _ | application .. | binding .. | stray _ => (1, n :: met)

/-- How deep the evaluation of a formula goes. -/
def evaluationDepth (n : Node) : Nat := (evaluationFrom [] n).1

/-- Evaluation goes down to the atoms at least. -/
theorem levels_le_evaluationFrom {met : List Node} {n : Node} (h : n.IsFormula) :
    n.levels ≤ (n.evaluationFrom met).1 := by
  induction h generalizing met with
  | atom i =>
    rw [evaluationFrom]
    split <;> simp [levels]
  | @neg x _ ih | @group x _ ih =>
    rw [evaluationFrom]
    split
    · dsimp only
      omega
    · exact Nat.succ_le_succ ih
  | @binary l r op _ _ ihl ihr =>
    rw [evaluationFrom]
    split
    · dsimp only
      omega
    · have hleft := @ihl met
      have hright := @ihr (l.evaluationFrom met).2
      simp only [levels]
      omega

end Node

/-- Whether evaluating a formula goes beyond the limit. A formula with too many levels
is found first, without looking for parts that occur again. -/
def Nesting.Limit.refusesTable (limit : Limit) (formula : Node) : Bool :=
  limit.exceededBy formula.levels || limit.exceededBy formula.evaluationDepth

theorem Nesting.refusesTable_eq (limit : Limit) {formula : Node} (h : formula.IsFormula) :
    limit.refusesTable formula = limit.exceededBy formula.evaluationDepth := by
  have hlevels : formula.levels ≤ formula.evaluationDepth := Node.levels_le_evaluationFrom h
  rw [Limit.refusesTable, ← exceededBy_max, Nat.max_eq_right hlevels]

/-- Whether writing a node goes beyond the limit. -/
def Nesting.Limit.refusesText (limit : Limit) (n : Node) : Bool :=
  match limit with
  | none => false
  | some bound => n.textOverruns bound.deepest

@[simp] theorem Nesting.refusesText_none (n : Node) : Limit.refusesText none n = false := rfl

end Propositional
