/-
The trees of the language. Formulas are built from atoms by negation,
parentheses and the four connectives; a rule is an equivalence or the name of
one; a statement is a formula, the application of a rule to one, or the
binding of a name to a rule. All of them are nodes of one type, so that every
operation says what it answers on a node out of place: `IsFormula`,
`IsRule` and `IsExpression` single out the well-formed ones.
-/

namespace Propositional

/-- The binary connectives, in the order of how tightly they bind. -/
inductive Connective
  | conj
  | disj
  | cond
  | bicond
  deriving DecidableEq, Repr, Inhabited

namespace Connective

def symbol : Connective → String
  | conj => "&"
  | disj => "|"
  | cond => "->"
  | bicond => "<->"

/-- A connective of lower rank binds tighter. -/
def rank : Connective → Nat
  | conj => 0
  | disj => 1
  | cond => 2
  | bicond => 3

/-- What the connective makes of two truth values. -/
def apply : Connective → Bool → Bool → Bool
  | conj, a, b => a && b
  | disj, a, b => a || b
  | cond, a, b => !a || b
  | bicond, a, b => a == b

/-- The connective as it stands in the description of a node. -/
def describe : Connective → String
  | conj => "<BinOperator.AND: '&'>"
  | disj => "<BinOperator.OR: '|'>"
  | cond => "<BinOperator.ARROW: '->'>"
  | bicond => "<BinOperator.TWIN_ARROW: '<->'>"

theorem rank_injective {a b : Connective} (h : a.rank = b.rank) : a = b := by
  cases a <;> cases b <;> first | rfl | exact absurd h (by decide)

end Connective

/-- A tree. Atoms and rule names are indices into the names of a symbol table.
A `stray` is what stands where a node is missing: nothing, or a bare word. -/
inductive Node
  | atom (index : Int)
  | neg (operand : Node)
  | group (inner : Node)
  | binary (left : Node) (op : Connective) (right : Node)
  | equivalence (lhs rhs : Node)
  | ruleName (index : Int)
  | application (target rule : Node)
  | binding (target rule : Node)
  | stray (word : Option String)
  deriving DecidableEq, Repr, Inhabited

namespace Node

/-- Atoms, negations, groups and binary nodes all the way down. -/
inductive IsFormula : Node → Prop
  | atom (i : Int) : IsFormula (atom i)
  | neg {x : Node} : IsFormula x → IsFormula (neg x)
  | group {x : Node} : IsFormula x → IsFormula (group x)
  | binary {l r : Node} (op : Connective) : IsFormula l → IsFormula r → IsFormula (binary l op r)

/-- Whether a node is a formula, as a test. -/
def isFormula : Node → Bool
  | atom _ => true
  | neg x | group x => x.isFormula
  | binary l _ r => l.isFormula && r.isFormula
  | _ => false

theorem isFormula_iff {n : Node} : n.isFormula ↔ n.IsFormula := by
  constructor
  · intro h
    induction n with
    | atom i => exact .atom i
    | neg x ih => exact .neg (ih h)
    | group x ih => exact .group (ih h)
    | binary l op r ihl ihr =>
      simp only [isFormula, Bool.and_eq_true] at h
      exact .binary op (ihl h.1) (ihr h.2)
    | equivalence | ruleName | application | binding | stray => simp [isFormula] at h
  · intro h
    induction h with
    | atom => rfl
    | neg _ ih | group _ ih => exact ih
    | binary _ _ _ ihl ihr => simp [isFormula, ihl, ihr]

instance (n : Node) : Decidable n.IsFormula :=
  decidable_of_iff (n.isFormula = true) isFormula_iff

/-- An equivalence of formulas, as a rule store may hold it. -/
def IsFormulaRule : Node → Prop
  | equivalence lhs rhs => lhs.IsFormula ∧ rhs.IsFormula
  | _ => False

mutual

/-- Nodes that may stand where an expression belongs. -/
inductive IsExpression : Node → Prop
  | atom (i : Int) : IsExpression (atom i)
  | neg {x : Node} : IsExpression x → IsExpression (neg x)
  | group {x : Node} : IsExpression x → IsExpression (group x)
  | binary {l r : Node} (op : Connective) :
      IsExpression l → IsExpression r → IsExpression (binary l op r)
  | application {t r : Node} : IsExpression t → IsRule r → IsExpression (application t r)
  | binding {t r : Node} : IsExpression t → IsRule r → IsExpression (binding t r)

/-- Nodes that may stand where a rule belongs. -/
inductive IsRule : Node → Prop
  | equivalence {l r : Node} : IsExpression l → IsExpression r → IsRule (equivalence l r)
  | ruleName (i : Int) : IsRule (ruleName i)

end

/-- The word for the kind of a node, as messages use it. -/
def kindName : Node → String
  | atom _ => "Primary"
  | neg _ => "Not"
  | group _ => "Group"
  | binary .. => "Binary"
  | equivalence .. => "Equivalence"
  | ruleName _ => "RuleId"
  | application .. => "Pattern"
  | binding .. => "Binding"
  | stray none => "NoneType"
  | stray (some _) => "str"

def isGroup : Node → Bool
  | group _ => true
  | _ => false

/-- How many levels the tree has. -/
def levels : Node → Nat
  | atom _ | ruleName _ | stray _ => 1
  | neg x | group x => x.levels + 1
  | binary l _ r | equivalence l r | application l r | binding l r => max l.levels r.levels + 1

/-- The indices of the atoms of a formula, from left to right, repeated as they occur. -/
def atoms : Node → List Int
  | atom i => [i]
  | neg x | group x => x.atoms
  | binary l _ r => l.atoms ++ r.atoms
  | _ => []

end Node

end Propositional
