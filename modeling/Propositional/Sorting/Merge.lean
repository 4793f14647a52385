/-
Merging two runs by a comparison that may fail. Items are passed on one by one
from the heads of the runs until one run has won several times in a row; from
then on whole leads are passed on, as long as they stay long. How many wins it
takes is the patience, which is kept from merge to merge. The shorter run is
`xs`; runs are read from the front if it is the first of the two and from the
back otherwise.
-/
import Propositional.Sorting.Search

namespace Propositional.Sorting

variable {α ε : Type}

/-- Whether `y` is passed on before `x`. -/
def Side.passes (side : Side) (lt : α → α → Except ε Bool) (x y : α) : Except ε Bool :=
  match side with
  | front => lt y x
  | back => lt x y

/-- What is left of two runs is in order: one item of `xs` comes last. -/
def settled (xs ys : List α) : Bool := ys.isEmpty || xs.length ≤ 1

/-- Passes on what leads `xs` before the first of `ys`, and then that one. The
length of the lead comes with the answer. -/
def passShorter (side : Side) (lt : α → α → Except ε Bool) (xs ys : List α) :
    Except ε (Nat × List α × List α × List α) :=
  match ys with
  | [] => .ok (0, [], xs, [])
  | y :: others => do
    let n ← lead side (fun x => (!·) <$> side.passes lt x y) xs
    let left := xs.drop n
    if settled left ys then return (n, xs.take n, left, ys)
    else return (n, xs.take n ++ [y], left, others)

/-- Passes on what leads `ys` before the first of `xs`, and then that one. -/
def passLonger (side : Side) (lt : α → α → Except ε Bool) (xs ys : List α) :
    Except ε (Nat × List α × List α × List α) :=
  match xs with
  | [] => .ok (0, [], [], ys)
  | x :: others => do
    let n ← lead side (side.passes lt x) ys
    let left := ys.drop n
    if settled xs left then return (n, ys.take n, xs, left)
    else return (n, ys.take n ++ [x], others, left)

/-- How a merge goes on: item by item, after so many wins in a row of one of the
runs, or by leads. -/
inductive Pace
  | single (shorter longer : Nat)
  | leads
  deriving DecidableEq, Repr, Inhabited

/-- Leads of this length are long. -/
def longLead : Nat := 7

/-- Merges what is left of two runs in so many rounds; each passes on an item. -/
def rounds (side : Side) (lt : α → α → Except ε Bool) :
    (count patience : Nat) → Pace → (xs ys : List α) → Except ε (List α × Nat)
  | 0, patience, _, xs, ys => .ok (ys ++ xs, patience)
  | count + 1, patience, pace, xs, ys => do
    let onward (passed : List α) (next : Nat × Pace) (xs ys : List α) : Except ε (List α × Nat) := do
      if settled xs ys then return (passed ++ ys ++ xs, patience)
      let (rest, patience) ← rounds side lt count next.1 next.2 xs ys
      return (passed ++ rest, patience)
    match pace, xs, ys with
    | .single m n, x :: xs, y :: ys =>
      if ← side.passes lt x y then
        onward [y] (patience, if n + 1 < patience then .single 0 (n + 1) else .leads) (x :: xs) ys
      else
        onward [x] (patience, if m + 1 < patience then .single (m + 1) 0 else .leads) xs (y :: ys)
    | .leads, xs, ys =>
      let (one, two) :=
        match side with
        | .front => (passShorter side lt, passLonger side lt)
        | .back => (passLonger side lt, passShorter side lt)
      let (m, passed, xs, ys) ← one xs ys
      if settled xs ys then return (passed ++ ys ++ xs, patience)
      let (n, more, xs, ys) ← two xs ys
      let next : Nat × Pace :=
        if longLead ≤ m ∨ longLead ≤ n then (max 1 (patience - 1), .leads)
        else (patience + 1, .single 0 0)
      onward (passed ++ more) next xs ys
    | _, xs, ys => return (ys ++ xs, patience)

/-- Merges two runs of which the first of `ys` is known to be passed on first, and
the last of `xs` last. -/
def mergeFrom (side : Side) (lt : α → α → Except ε Bool) (patience : Nat) (xs ys : List α) :
    Except ε (List α × Nat) :=
  match ys with
  | [] => .ok (xs, patience)
  | y :: ys => do
    if settled xs ys then return (y :: ys ++ xs, patience)
    let (rest, patience) ← rounds side lt (xs.length + ys.length) patience (.single 0 0) xs ys
    return (y :: rest, patience)

/-- Merges two ascending runs. What comes before the second run or after the first
one is set aside; what is left is merged. The patience after it comes with the
answer. -/
def merge (lt : α → α → Except ε Bool) (patience : Nat) (xs ys : List α) :
    Except ε (List α × Nat) :=
  match ys with
  | [] => .ok (xs, patience)
  | y :: _ => do
    let (before, xs) := xs.splitAt (← lead .front (fun x => (!·) <$> lt y x) xs)
    match xs.getLast? with
    | none => return (before ++ ys, patience)
    | some x =>
      let after ← lead .back (fun y => (!·) <$> lt y x) ys.reverse
      let (ys, after) := ys.splitAt (ys.length - after)
      let (merged, patience) ←
        if xs.length ≤ ys.length then mergeFrom .front lt patience xs ys
        else (fun (merged, patience) => (merged.reverse, patience)) <$>
          mergeFrom .back lt patience ys.reverse xs.reverse
      return (before ++ merged ++ after, patience)

end Propositional.Sorting
