/-
What an operation answers where it cannot do its work: one constructor per
cause, and one function for the wording. Faults of the language (a rule that
is not defined, an atom that was not bound, …) are among them as well as
misuses of an operation (a rule where an expression belongs, …).
-/
import Propositional.Node
import Propositional.Text.Quoted

namespace Propositional

/-- A node by its kind and its named parts, as error messages and the log show it. -/
def Node.describe : Node → String
  | atom i => "Primary(index=" ++ toString i ++ ")"
  | neg x => "Not(operand=" ++ x.describe ++ ")"
  | group x => "Group(inner=" ++ x.describe ++ ")"
  | binary l op r =>
    "Binary(left=" ++ l.describe ++ ", op=" ++ op.describe ++ ", right=" ++ r.describe ++ ")"
  | equivalence l r => "Equivalence(lhs=" ++ l.describe ++ ", rhs=" ++ r.describe ++ ")"
  | ruleName i => "RuleId(index=" ++ toString i ++ ")"
  | application t r => "Pattern(expr=" ++ t.describe ++ ", rule=" ++ r.describe ++ ")"
  | binding t r => "Binding(target=" ++ t.describe ++ ", rule=" ++ r.describe ++ ")"
  | stray none => "None"
  | stray (some word) => Text.quote word

example : (Node.neg (.atom 0)).describe = "Not(operand=Primary(index=0))" := by decide

/-- The four ways to compare two nodes. -/
inductive Relation
  | lt
  | le
  | gt
  | ge
  deriving DecidableEq, Repr, Inhabited

def Relation.symbol : Relation → String
  | lt => "<"
  | le => "<="
  | gt => ">"
  | ge => ">="

/-- Why an operation gave no answer. -/
inductive Fault
  /-- An index without a name. -/
  | missingName (index : Int)
  /-- A name that is not in the symbol table. -/
  | unknownName (name : String)
  /-- A truth table has no such column. -/
  | noColumn (node : Node)
  /-- A column of so many truth values has no such row. -/
  | noRow (row rows : Nat)
  | notExpression (node : Node)
  | notRule (node : Node)
  /-- A name can only be bound to an equivalence. -/
  | notEquivalence (node : Node)
  /-- The sides of a rule are formulas. -/
  | notInRule (node : Node)
  /-- Two sort keys of different make. -/
  | incomparable (relation : Relation) (left right : String)
  /-- A truth table is asked for what is no formula over its atoms. -/
  | notEvaluable (node : Node)
  | undefinedRule (name : String)
  /-- The right-hand side of a rule has an atom that the match bound to nothing. -/
  | unboundAtom
  /-- Strict matching met an expression of another shape. -/
  | mismatch
  deriving DecidableEq, Repr, Inhabited

/-- The sentence that announces a mismatch. -/
def mismatchMessage : String := "Expression does not match pattern"

/-- Whether an index fits into a signed word of 64 bits. -/
def isWordSized (index : Int) : Bool :=
  -9223372036854775808 ≤ index && index < 9223372036854775808

def Fault.message : Fault → String
  | missingName index =>
    if isWordSized index then "list index out of range"
    else "cannot fit 'int' into an index-sized integer"
  | unknownName name => Text.quote name
  | noColumn node => node.describe
  | noRow row rows =>
    "index " ++ toString row ++ " is out of bounds for axis 0 with size " ++ toString rows
  | notExpression node => "Not an expression: " ++ node.describe
  | notRule node => "Not a rule: " ++ node.describe
  | notEquivalence node => "Only equivalences can be bound, got " ++ node.describe
  | notInRule node => node.kindName ++ " cannot appear in a rule"
  | incomparable relation left right =>
    "'" ++ relation.symbol ++ "' not supported between instances of '" ++ left ++ "' and '" ++
      right ++ "'"
  | notEvaluable node =>
    "Cannot evaluate " ++ node.kindName ++ "; only pure formulas have truth tables"
  | undefinedRule name => "Undefined rule used: " ++ name
  | unboundAtom => "Pattern could not be found in expression or left hand side"
  | mismatch => mismatchMessage

/-- What succeeds as a whole succeeds part by part. -/
theorem bind_eq_ok {α β : Type} {x : Except Fault α} {f : α → Except Fault β} {b : β}
    (h : x >>= f = .ok b) : ∃ a, x = .ok a ∧ f a = .ok b := by
  cases x with
  | error fault => cases h
  | ok a => exact ⟨a, rfl, h⟩

/-- What a computation came to, when a test of its result says that it succeeded. -/
theorem ok_of_map_toOption {α β : Type} {x : Except Fault α} {f : α → β} {b : β}
    (h : x.toOption.map f = some b) : ∃ a, x = .ok a ∧ f a = b := by
  cases x with
  | error fault => cases h
  | ok a => exact ⟨a, rfl, Option.some.inj h⟩

end Propositional
