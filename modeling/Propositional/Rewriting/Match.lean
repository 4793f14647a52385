/-
Matching an expression against the left-hand side of a rule. Both trees are
walked together as long as they have the same node at the same place; where
the walk ends, an atom of the left-hand side meets a part of the expression,
or the two clash. `meetings` lists these ends from left to right; the match
follows the list, binds each atom to what it meets first, and, if strict, asks
that it meets the same again. What the atoms are bound to takes their places in
the right-hand side: `substitute` needs a binding for each of them, `Node.subst`
is the same for a substitution that is defined everywhere.
-/
import Propositional.Fault
import Propositional.Node.Same
import Propositional.OrderedMap

namespace Propositional

/-- Expressions bound to the atoms of a rule, in the order in which they were bound. -/
abbrev Bindings := OrderedMap Int Node

/-- Why a left-hand side and an expression do not match at a place. -/
inductive MismatchReason
  | connective (expected : Connective)
  | otherConnective (expected found : Connective)
  | negation
  | parentheses
  | inconsistent
  deriving DecidableEq, Repr, Inhabited

def MismatchReason.describe : MismatchReason → String
  | connective expected => "expected '" ++ expected.symbol ++ "'"
  | otherConnective expected found =>
    "expected '" ++ expected.symbol ++ "', found '" ++ found.symbol ++ "'"
  | negation => "expected negation"
  | parentheses => "expected parentheses"
  | inconsistent => "inconsistent binding"

/-- A place where a left-hand side and an expression do not match. -/
structure Mismatch where
  pattern : Node
  found : Node
  reason : MismatchReason
  deriving DecidableEq, Repr, Inhabited

/-- Where the walk through a left-hand side and an expression ends. -/
inductive Meeting
  /-- An atom of the left-hand side meets a part of the expression. -/
  | site (index : Int) (found : Node)
  | clash (mismatch : Mismatch)
  /-- The left-hand side has a node that is no part of a formula. -/
  | improper (pattern : Node)
  deriving DecidableEq, Repr, Inhabited

/-- The ends of the walk through an expression and a left-hand side, from left to
right, each with a label for its place. The whole has the label `here`; from the
label of a node follow that of its only or left part and that of its right one. -/
def meetingsFrom (first second : β → β) (here : β) : (lhs expr : Node) → List (β × Meeting)
  | .atom i, e => [(here, .site i e)]
  | .neg p, .neg e | .group p, .group e => meetingsFrom first second (first here) p e
  | .neg p, e => [(here, .clash ⟨.neg p, e, .negation⟩)]
  | .group p, e => [(here, .clash ⟨.group p, e, .parentheses⟩)]
  | .binary pl op pr, .binary el op' er =>
    if op = op' then
      meetingsFrom first second (first here) pl el ++
        meetingsFrom first second (second here) pr er
    else [(here, .clash ⟨.binary pl op pr, .binary el op' er, .otherConnective op op'⟩)]
  | .binary pl op pr, e => [(here, .clash ⟨.binary pl op pr, e, .connective op⟩)]
  | p, _ => [(here, .improper p)]

def meetings (lhs expr : Node) : List Meeting := (meetingsFrom id id () lhs expr).map (·.2)

/-- What a match has found so far. -/
structure Match where
  bindings : Bindings
  mismatches : List Mismatch
  deriving DecidableEq

namespace Match

def empty : Match := ⟨.empty, []⟩

instance : Inhabited Match := ⟨empty⟩

def ok (m : Match) : Bool := m.mismatches.isEmpty

def record (m : Match) (mismatch : Mismatch) : Match :=
  { m with mismatches := m.mismatches ++ [mismatch] }

/-- Takes one meeting into account. -/
def meet (strict : Bool) (m : Match) : Meeting → Except Fault Match
  | .site i found =>
    match m.bindings.get? i with
    | none => .ok { m with bindings := m.bindings.insert i found }
    | some bound =>
      if strict && !bound.same found then .ok (m.record ⟨.atom i, found, .inconsistent⟩) else .ok m
  | .clash mismatch => .ok (m.record mismatch)
  | .improper pattern => .error (.notInRule pattern)

/-- Takes meetings into account one after the other. -/
def follow (strict : Bool) (m : Match) (ends : List Meeting) : Except Fault Match :=
  ends.foldlM (meet strict) m

/-- Matches an expression against a left-hand side. -/
def find (strict : Bool) (lhs expr : Node) : Except Fault Match :=
  follow strict empty (meetings lhs expr)

end Match

namespace Node

/-- The node with its atoms replaced by their bindings. The leftmost atom without
one, or node that is no part of a formula, is the fault. -/
def substitute (bindings : Bindings) : Node → Except Fault Node
  | atom i =>
    match bindings.get? i with
    | some bound => .ok bound
    | none => .error .unboundAtom
  | neg x => do return neg (← x.substitute bindings)
  | group x => do return group (← x.substitute bindings)
  | binary l op r => do
    let left ← l.substitute bindings
    let right ← r.substitute bindings
    return binary left op right
  | n => .error (.notInRule n)

/-- The node with every atom replaced by the expression that `σ` gives for it. -/
def subst (σ : Int → Node) : Node → Node
  | atom i => σ i
  | neg x => neg (x.subst σ)
  | group x => group (x.subst σ)
  | binary l op r => binary (l.subst σ) op (r.subst σ)
  | n => n

end Node

end Propositional
