/-
Rewriting by rules, given in place or bound to names. One step matches the
expression against the left-hand side and substitutes what was bound into the
right-hand side. A chain `f => r₁ => … => rₙ` applies its rules to `f` from left
to right and stops at the first that does not apply. `chain` is what it comes to,
`steps` lists which expression met which rule on the way.
-/
import Propositional.Node.Printer
import Propositional.Rewriting.Match

namespace Propositional

/-- Rules by name, in the order in which the names were first bound. -/
abbrev RuleStore := OrderedMap String Node

namespace RuleStore

/-- Binds a name to a rule; only equivalences can be bound. -/
def bind (rules : RuleStore) (name : String) : Node → Except Fault RuleStore
  | .equivalence lhs rhs => .ok (rules.insert name (.equivalence lhs rhs))
  | rule => .error (.notEquivalence rule)

/-- The rule under a name. -/
def find (rules : RuleStore) (name : String) : Except Fault Node :=
  match rules.get? name with
  | some rule => .ok rule
  | none => .error (.undefinedRule name)

end RuleStore

/-- How rewriting ended: with a new expression, with an expression of another
shape than the left-hand side, or with an atom of the right-hand side unbound. -/
inductive RewriteStatus
  | ok (result : Node)
  | mismatch
  | unbound
  deriving DecidableEq, Repr, Inhabited

/-- How rewriting ended, and all mismatches on the way. -/
structure Rewrite where
  status : RewriteStatus
  mismatches : List Mismatch
  deriving DecidableEq, Repr, Inhabited

def Mismatch.describe (symbols : Symbols) (m : Mismatch) : Except Fault String := do
  let found ← m.found.text symbols
  return mismatchMessage ++ " (" ++ m.reason.describe ++ "): " ++ found

namespace Rewrite

/-- The new expression, or the fault for which there is none. -/
def unwrap (r : Rewrite) : Except Fault Node :=
  match r.status with
  | .ok result => .ok result
  | .mismatch => .error .mismatch
  | .unbound => .error .unboundAtom

/-- One step: `expr` by the rule `lhs = rhs`. -/
def step (strict : Bool) (lhs rhs expr : Node) : Except Fault Rewrite := do
  let found ← Match.find strict lhs expr
  if strict && !found.ok then
    return ⟨.mismatch, found.mismatches⟩
  match rhs.substitute found.bindings with
  | .ok result => return ⟨.ok result, found.mismatches⟩
  | .error .unboundAtom => return ⟨.unbound, found.mismatches⟩
  | .error fault => .error fault

/-- The rule that a node stands for: a name stands for what is stored under it,
any other node for itself. -/
def resolve (symbols : Symbols) (rules : RuleStore) : Node → Except Fault Node
  | .ruleName i => do
    let name ← symbols.nameOf i
    rules.find name
  | rule => .ok rule

/-- One step by a node that stands for a rule. -/
def byRule (symbols : Symbols) (rules : RuleStore) (strict : Bool) (rule expr : Node) :
    Except Fault Rewrite := do
  match ← resolve symbols rules rule with
  | .equivalence lhs rhs => step strict lhs rhs expr
  | other => .error (.notRule other)

/-- Applies `rule` to `target`, which may itself apply rules to an expression;
these are applied first. -/
def chain (symbols : Symbols) (rules : RuleStore) (strict : Bool) :
    (target rule : Node) → Except Fault Rewrite
  | .application target inner, rule => do
    let before ← chain symbols rules strict target inner
    match before.status with
    | .ok result =>
      let after ← byRule symbols rules strict rule result
      return { after with mismatches := before.mismatches ++ after.mismatches }
    | _ => return before
  | target, rule => byRule symbols rules strict rule target

/-- A step of a chain: `target` met the rule `lhs = rhs` with the given outcome. -/
structure Step where
  target : Node
  lhs : Node
  rhs : Node
  outcome : Rewrite
  deriving DecidableEq, Repr, Inhabited

/-- The expression at the head of a chain, and the rules applied to it in order. -/
def links : (target rule : Node) → Node × List Node
  | .application target inner, rule =>
    let (head, rules) := links target inner
    (head, rules ++ [rule])
  | target, rule => (target, [rule])

/-- The steps that are carried out when the rules are applied to `expr` in order. -/
def stepsFrom (symbols : Symbols) (rules : RuleStore) (strict : Bool) (expr : Node) :
    List Node → List Step
  | [] => []
  | rule :: rest =>
    match resolve symbols rules rule with
    | .ok (.equivalence lhs rhs) =>
      match step strict lhs rhs expr with
      | .ok outcome =>
        ⟨expr, lhs, rhs, outcome⟩ ::
          match outcome.status with
          | .ok result => stepsFrom symbols rules strict result rest
          | _ => []
      | .error _ => []
    | _ => []

/-- The steps that a chain carries out. -/
def steps (symbols : Symbols) (rules : RuleStore) (strict : Bool) (target rule : Node) :
    List Step :=
  let (head, applied) := links target rule
  stepsFrom symbols rules strict head applied

end Rewrite

end Propositional
