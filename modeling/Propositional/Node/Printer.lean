/-
The text of a node. Groups keep their parentheses. A binary node is put into
parentheses besides where reading it back would otherwise take it apart: under
a negation, on the left of a connective that binds tighter, and on the right of
one that binds tighter or equally.
-/
import Propositional.Fault
import Propositional.Symbols

namespace Propositional

/-- What is asked of a node: its text as an expression or as a rule. -/
inductive Role
  | expression
  | rule
  deriving DecidableEq, Repr, Inhabited

/-- The name of an atom or of a rule. -/
def Symbols.nameOf (symbols : Symbols) (index : Int) : Except Fault String :=
  match symbols.name? index with
  | some name => .ok name
  | none => .error (.missingName index)

namespace Node

def isBinary : Node → Bool
  | binary .. => true
  | _ => false

/-- On the left of `op`, a looser binary node needs parentheses. -/
def needsParensLeft (op : Connective) : Node → Bool
  | binary _ op' _ => op.rank < op'.rank
  | _ => false

/-- On the right of `op`, a binary node that does not bind tighter needs parentheses. -/
def needsParensRight (op : Connective) : Node → Bool
  | binary _ op' _ => op.rank ≤ op'.rank
  | _ => false

def parenthesise (needed : Bool) (text : String) : String :=
  if needed then "(" ++ text ++ ")" else text

/-- The text of a node in a role, and the fault of the leftmost part that has none. -/
def render (symbols : Symbols) : Role → Node → Except Fault String
  | .expression, atom i => symbols.nameOf i
  | .expression, neg x => do
    let text ← x.render symbols .expression
    return "~" ++ parenthesise x.isBinary text
  | .expression, group x => do
    let text ← x.render symbols .expression
    return "(" ++ text ++ ")"
  | .expression, binary l op r => do
    let left ← l.render symbols .expression
    let right ← r.render symbols .expression
    return parenthesise (l.needsParensLeft op) left ++ " " ++ op.symbol ++ " " ++
      parenthesise (r.needsParensRight op) right
  | .expression, application t r => do
    let target ← t.render symbols .expression
    let rule ← r.render symbols .rule
    return target ++ " => " ++ rule
  | .expression, binding t r => do
    let target ← t.render symbols .expression
    let rule ← r.render symbols .rule
    return target ++ " := " ++ rule
  | .expression, n => .error (.notExpression n)
  | .rule, equivalence l r => do
    let left ← l.render symbols .expression
    let right ← r.render symbols .expression
    return left ++ " = " ++ right
  | .rule, ruleName i => symbols.nameOf i
  | .rule, n => .error (.notRule n)

/-- The text of an expression. -/
def text (symbols : Symbols) (n : Node) : Except Fault String := n.render symbols .expression

/-- The text of a rule. -/
def ruleText (symbols : Symbols) (n : Node) : Except Fault String := n.render symbols .rule

example :
    ((neg (binary (atom 0) .conj (atom 1))).text (Symbols.ofList ["p", "q"])).toOption =
      some "~(p & q)" := by
  decide

end Node

end Propositional
