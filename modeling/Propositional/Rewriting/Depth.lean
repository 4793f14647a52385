/-
How deep a chain of rewrites goes. Each rule takes a level, and what one rule does is
done below all rules after it. A match goes as deep as the left-hand side, a substitution
as deep as the right-hand side. To compare two expressions takes three levels for each of
theirs, and so does describing one in a log. What substitution has put in several places
is one expression there, and comparing it with itself takes no depth; marks tell which
parts are one. `overrun` follows a chain up to the first place that lies beyond a bound.
-/
import Propositional.Nesting
import Propositional.Rewriting.Rewrite

namespace Propositional

open Nesting (Bound)

/-- A mark for each part of a formula. Parts with one mark are one and the same. -/
inductive Marks
  | leaf (mark : Nat)
  | one (mark : Nat) (inner : Marks)
  | two (mark : Nat) (left right : Marks)
  deriving Repr, Inhabited

namespace Marks

/-- The mark of the whole. -/
def mark : Marks → Nat
  | leaf m | one m _ | two m .. => m

/-- The marks of the only or the left part. -/
def first : Marks → Marks
  | one _ inner => inner
  | two _ left _ => left
  | leaf m => leaf m

/-- The marks of the right part. -/
def second : Marks → Marks
  | two _ _ right => right
  | m => m

/-- The marks of a formula whose atoms stand for expressions with the marks
`held`. Its other parts are new; they get marks from `next` on. The next unused
mark comes with the answer. -/
def fresh (held : Int → Option Marks) (next : Nat) : Node → Marks × Nat
  | .atom i =>
    match held i with
    | some marks => (marks, next)
    | none => (leaf next, next + 1)
  | .neg x | .group x =>
    let (inner, unused) := fresh held (next + 1) x
    (one next inner, unused)
  | .binary l _ r =>
    let (left, unused) := fresh held (next + 1) l
    let (right, unused) := fresh held unused r
    (two next left right, unused)
  | _ => (leaf next, next + 1)

end Marks

/-- Whether two expressions are equal, if that is known within so many levels.
They are compared from left to right up to the first difference. -/
def Node.sameWithin : (levels : Nat) → Node → Marks → Node → Marks → Option Bool
  | 0, _, _, _, _ => none
  | levels + 1, x, mx, y, my =>
    if mx.mark = my.mark then some true
    else
      match x, y with
      | .neg x, .neg y | .group x, .group y => sameWithin levels x mx.first y my.first
      | .binary l op r, .binary l' op' r' =>
        match sameWithin levels l mx.first l' my.first with
        | some true =>
          if op = op' then sameWithin levels r mx.second r' my.second else some false
        | answer => answer
      | x, y => some (x.same y)

namespace Rewrite

/-- A place where a match arrives: its level, and the marks of the expression there. -/
structure Spot where
  level : Nat
  marks : Marks
  deriving Repr, Inhabited

def Spot.first (s : Spot) : Spot := ⟨s.level + 1, s.marks.first⟩

def Spot.second (s : Spot) : Spot := ⟨s.level + 1, s.marks.second⟩

/-- The ends of a match with their spots. -/
def ends (marks : Marks) (lhs expr : Node) : List (Spot × Meeting) :=
  meetingsFrom Spot.first Spot.second ⟨1, marks⟩ lhs expr

/-- The marks of what an atom is bound to: of what it meets first. -/
def heldMarks (met : List (Spot × Meeting)) (i : Int) : Option Marks :=
  met.findSome? fun (spot, meeting) =>
    match meeting with
    | .site j _ => if j = i then some spot.marks else none
    | _ => none

/-- Whether describing an expression for the log goes beyond the bound. -/
def logOverruns (bound : Bound) (level : Nat) (expr : Node) : Bool :=
  bound.logged && expr.levelsOverrun ((bound.deepest - level) / 3)

/-- Whether taking a meeting into account goes beyond the bound. -/
def meetingOverruns (bound : Bound) (strict : Bool) (held : Int → Option Marks)
    (bindings : Bindings) (spot : Spot) (meeting : Meeting) : Bool :=
  bound.deepest < spot.level ||
    match meeting with
    | .clash mismatch => logOverruns bound spot.level mismatch.found
    | .improper _ => false
    | .site i found =>
      strict &&
        match bindings.get? i, held i with
        | some first, some marks =>
          match first.sameWithin ((bound.deepest - spot.level) / 3) marks found spot.marks with
          | none => true
          | some true => false
          | some false => logOverruns bound spot.level found
        | _, _ => false

/-- If a match goes beyond the bound, the mismatches met before. -/
def matchOverrun (bound : Bound) (strict : Bool) (held : Int → Option Marks) :
    Match → List (Spot × Meeting) → Option (List Mismatch)
  | _, [] => none
  | found, (spot, meeting) :: rest =>
    if meetingOverruns bound strict held found.bindings spot meeting then some found.mismatches
    else
      match found.meet strict meeting with
      | .ok found => matchOverrun bound strict held found rest
      | .error _ => none

/-- The levels of a right-hand side on which its atoms lie, from left to right. -/
def atomLevels (level : Nat) : Node → List (Nat × Int)
  | .atom i => [(level, i)]
  | .neg x | .group x => atomLevels (level + 1) x
  | .binary l _ r => atomLevels (level + 1) l ++ atomLevels (level + 1) r
  | _ => []

/-- Whether substitution meets an atom beyond the bound before one that is unbound. -/
def substitutionOverruns (bound : Bound) (bindings : Bindings) : List (Nat × Int) → Bool
  | [] => false
  | (level, i) :: rest =>
    bound.deepest < level ||
      ((bindings.get? i).isSome && substitutionOverruns bound bindings rest)

/-- If a step goes beyond the bound, the mismatches met before. -/
def stepOverrun (bound : Bound) (strict : Bool) (marks : Marks) (lhs rhs expr : Node) :
    Option (List Mismatch) :=
  let met := ends marks lhs expr
  match matchOverrun bound strict (heldMarks met) .empty met with
  | some mismatches => some mismatches
  | none =>
    match Match.find strict lhs expr with
    | .error _ => none
    | .ok found =>
      if (found.ok || !strict) && substitutionOverruns bound found.bindings (atomLevels 1 rhs) then
        some found.mismatches
      else none

/-- If applying the rules to `expr` in order goes beyond the bound, the mismatches
met before. Each rule is applied below those after it. Marks from `next` on are
unused. -/
def overrunFrom (bound : Bound) (symbols : Symbols) (rules : RuleStore) (strict : Bool)
    (expr : Node) (marks : Marks) (next : Nat) : List Node → Option (List Mismatch)
  | [] => none
  | rule :: rest =>
    match resolve symbols rules rule with
    | .ok (.equivalence lhs rhs) =>
      match stepOverrun (bound.below rest.length) strict marks lhs rhs expr with
      | some mismatches => some mismatches
      | none =>
        match step strict lhs rhs expr with
        | .ok ⟨.ok result, mismatches⟩ =>
          let (marks, next) := Marks.fresh (heldMarks (ends marks lhs expr)) next rhs
          (overrunFrom bound symbols rules strict result marks next rest).map (mismatches ++ ·)
        | _ => none
    | _ => none

/-- If a chain goes beyond the bound, the mismatches met before. All its rules are
reached before the first of them is applied. -/
def overrun (bound : Bound) (symbols : Symbols) (rules : RuleStore) (strict : Bool)
    (target rule : Node) : Option (List Mismatch) :=
  let (head, applied) := links target rule
  if bound.deepest < applied.length then some []
  else
    let (marks, next) := Marks.fresh (fun _ => none) 0 head
    overrunFrom bound symbols rules strict head marks next applied

end Rewrite

end Propositional
