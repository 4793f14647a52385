/-
The order of nodes. Kinds are ranked, applications lowest and atoms highest;
nodes of one rank are ordered by their parts from left to right, connectives
by their rank and atoms by their index. All this is the lexicographic order of
sort keys, in which a node lists its rank and then the keys of its parts.
-/
import Propositional.Fault
import Propositional.Sorting
import Propositional.Sorting.Runs

namespace Propositional.Node

/-- An item of a sort key: the rank that opens a node's key, a bare number, or
something that has no place in the order. -/
inductive KeyItem
  | rank (n : Nat)
  | number (n : Int)
  | foreign (kind : String)
  deriving DecidableEq, Repr, Inhabited

/-- The word for what a key item begins, as messages use it. -/
def KeyItem.kindName : KeyItem → String
  | rank _ => "tuple"
  | number _ => "int"
  | foreign kind => kind

/-- The sort key. -/
def key : Node → List KeyItem
  | application t r => .rank 0 :: (t.key ++ r.key)
  | binding t r => .rank 1 :: (t.key ++ r.key)
  | binary l op r => .rank 2 :: (l.key ++ .number op.rank :: r.key)
  | neg x => .rank 3 :: x.key
  | group x => .rank 4 :: x.key
  | atom i => [.rank 5, .number i]
  | equivalence l r => .rank 0 :: (l.key ++ r.key)
  | ruleName i => [.rank 1, .number i]
  | stray none => [.foreign "NoneType"]
  | stray (some _) => [.foreign "str"]

/-- How two keys compare: by the first items in which they differ. Items of
different make do not compare; the answer then names both. -/
def compareKeys : List KeyItem → List KeyItem → Except (String × String) Ordering
  | [], [] => .ok .eq
  | [], _ :: _ => .ok .lt
  | _ :: _, [] => .ok .gt
  | .rank m :: xs, .rank n :: ys =>
    if m = n then compareKeys xs ys else .ok (compare m n)
  | .number m :: xs, .number n :: ys =>
    if m = n then compareKeys xs ys else .ok (compare m n)
  | x :: _, y :: _ => .error (x.kindName, y.kindName)

end Propositional.Node

namespace Propositional

/-- Whether a relation holds between two things that compare as given. -/
def Relation.holds : Relation → Ordering → Bool
  | lt, o => o.isLT
  | le, o => o.isLE
  | gt, o => o.isGT
  | ge, o => o.isGE

/-- Whether two nodes stand in a relation. -/
def Node.compares (relation : Relation) (a b : Node) : Except Fault Bool :=
  match a, b with
  | .stray _, _ | _, .stray _ => .error (.incomparable relation a.kindName b.kindName)
  | _, _ =>
    match Node.compareKeys a.key b.key with
    | .ok o => .ok (relation.holds o)
    | .error (left, right) => .error (.incomparable relation left right)

/-- Whether any two of the nodes compare. -/
def Node.allCompare (nodes : List Node) : Bool :=
  let keys := nodes.map key
  keys.all fun a => keys.all fun b => (compareKeys a b).isOk

/-- Whether one key may stand before another, of two that compare. -/
def Node.keyLe (a b : List Node.KeyItem) : Bool := (compareKeys a b).toOption.any (·.isLE)

/-- The items in ascending order of their nodes, of which any two compare; equal ones
keep their order. -/
def Node.arrange (node : α → Node) (items : List α) : List α :=
  (Sorting.sort (fun a b => keyLe a.1 b.1) (items.map fun a => ((node a).key, a))).map (·.2)

theorem Node.arrange_eq (node : α → Node) (items : List α) :
    arrange node items = Sorting.sort (fun a b => keyLe (node a).key (node b).key) items := by
  rw [arrange, Sorting.sort_map, List.map_map, Function.comp_def, List.map_id']

/-- Sorting neither adds nor drops an item. -/
theorem Node.arrange_perm (node : α → Node) (items : List α) : (arrange node items).Perm items := by
  rw [arrange_eq]
  exact Sorting.sort_perm _ items

/-- The items in ascending order of their nodes. Where two nodes do not compare, the
fault is that of the first comparison that fails when the list is sorted by runs. -/
def Node.sortBy {α : Type} (node : α → Node) (items : List α) : Except Fault (List α) :=
  if allCompare (items.map node) then .ok (arrange node items)
  else Sorting.byRuns (fun a b => compares .lt (node a) (node b)) items

/-- The nodes in ascending order. -/
def Node.sort (nodes : List Node) : Except Fault (List Node) := sortBy id nodes

example :
    (Node.sort [.atom 1, .neg (.atom 0), .atom 0]).toOption =
      some [.neg (.atom 0), .atom 0, .atom 1] := by
  decide

end Propositional
