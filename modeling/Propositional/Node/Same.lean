/-
Equality of nodes, for nodes with shared parts. Substitution may put one part
in many places, and a chain of rewrites may do so again and again; the tree
then has far more nodes than the memory that holds it. A part that is one
object in both trees is not looked into.
-/
import Propositional.Node

namespace Propositional.Node

/-- Equality, decided from left to right up to the first difference. -/
def decideSame : (x y : Node) → Decidable (x = y)
  | neg x, y =>
    match y with
    | neg y =>
      match withPtrEqDecEq x y fun _ => decideSame x y with
      | isTrue inner => isTrue (by rw [inner])
      | isFalse inner => isFalse fun e => inner (by injection e)
    | atom _ | group _ | binary .. | equivalence .. | ruleName _ | application .. | binding ..
    | stray _ => isFalse nofun
  | group x, y =>
    match y with
    | group y =>
      match withPtrEqDecEq x y fun _ => decideSame x y with
      | isTrue inner => isTrue (by rw [inner])
      | isFalse inner => isFalse fun e => inner (by injection e)
    | atom _ | neg _ | binary .. | equivalence .. | ruleName _ | application .. | binding ..
    | stray _ => isFalse nofun
  | binary l op r, y =>
    match y with
    | binary l' op' r' =>
      match withPtrEqDecEq l l' fun _ => decideSame l l' with
      | isFalse left => isFalse fun e => left (by injection e)
      | isTrue left =>
        if between : op = op' then
          match withPtrEqDecEq r r' fun _ => decideSame r r' with
          | isTrue right => isTrue (by rw [left, between, right])
          | isFalse right => isFalse fun e => right (by injection e)
        else isFalse fun e => between (by injection e)
    | atom _ | neg _ | group _ | equivalence .. | ruleName _ | application .. | binding ..
    | stray _ => isFalse nofun
  | atom i, y => inferInstanceAs (Decidable (atom i = y))
  | equivalence l r, y => inferInstanceAs (Decidable (equivalence l r = y))
  | ruleName i, y => inferInstanceAs (Decidable (ruleName i = y))
  | application t r, y => inferInstanceAs (Decidable (application t r = y))
  | binding t r, y => inferInstanceAs (Decidable (binding t r = y))
  | stray w, y => inferInstanceAs (Decidable (stray w = y))

/-- Whether two nodes are equal. -/
def same (x y : Node) : Bool := (decideSame x y).decide

@[simp] theorem same_iff {x y : Node} : x.same y = true ↔ x = y := by
  simp [same]

example : (neg (atom 0)).same (neg (atom 0)) ∧ ¬ (neg (atom 0)).same (group (atom 0)) := by decide

end Propositional.Node
