/-
Searches in a list for the end of the items at its head that pass a test. The
test may fail to answer; it is taken to fail from some item on, so that not every
item is asked. Where the list is a run read backwards, `back` is said of the
search: of two middle items it then asks the one that is nearer to the head.
-/

namespace Propositional.Sorting

variable {α ε : Type}

/-- The end from which a run is read. -/
inductive Side
  | front
  | back
  deriving DecidableEq, Repr, Inhabited

/-- How many items lie before the middle one. -/
def Side.half (side : Side) (items : List α) : Nat :=
  match side with
  | front => items.length / 2
  | back => (items.length - 1) / 2

/-- The number of items that pass, found by halving. -/
def halve (side : Side) (test : α → Except ε Bool) (items : List α) : Except ε Nat :=
  match _h : items.drop (side.half items) with
  | [] => .ok 0
  | x :: after => do
    if ← test x then return side.half items + 1 + (← halve side test after)
    else halve side test (items.take (side.half items))
termination_by items.length
decreasing_by
  all_goals
    have := congrArg List.length _h
    simp at this ⊢
    omega

/-- The number of items that pass, found by steps that double, each past `gap`
items, and then by halving the last step. -/
def gallop (side : Side) (test : α → Except ε Bool) (gap : Nat) (items : List α) :
    Except ε Nat :=
  match _h : items.drop gap with
  | [] => halve side test items
  | x :: after => do
    if ← test x then return gap + 1 + (← gallop side test (2 * gap + 1) after)
    else halve side test (items.take gap)
termination_by items.length
decreasing_by
  have := congrArg List.length _h
  simp at this
  omega

/-- The number of items that pass, where it is likely to be small. -/
def lead (side : Side) (test : α → Except ε Bool) : List α → Except ε Nat
  | [] => .ok 0
  | x :: rest => do
    if ← test x then return 1 + (← gallop side test 0 rest) else return 0

end Propositional.Sorting
