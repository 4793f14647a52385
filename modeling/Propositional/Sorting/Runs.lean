/-
Sorting by runs, by a comparison that may fail. The list is cut into runs that
ascend, or descend and are turned round; a run that is short gets more items, put
in place one by one. Neighbouring runs are merged, in an order that keeps runs of
like length together. The result is that of any stable sort. What counts is which
comparisons are made and in which order, for a list that cannot be sorted has the
fault of the first comparison that fails.
-/
import Propositional.Sorting.Merge

namespace Propositional.Sorting

variable {α ε : Type}

/-- How the run at the head of a list goes on after `last`: while items come
before the one in front of them, or while they do not. With it comes what is
left after the run. -/
def runAfter (lt : α → α → Except ε Bool) (down : Bool) (last : α) :
    List α → Except ε (List α × List α)
  | [] => .ok ([], [])
  | x :: xs => do
    if (← lt x last) = down then
      let (run, rest) ← runAfter lt down x xs
      return (x :: run, rest)
    else return ([], x :: xs)

/-- The run at the head of a list in ascending order, and the rest. -/
def headRun (lt : α → α → Except ε Bool) : List α → Except ε (List α × List α)
  | [] => .ok ([], [])
  | [x] => .ok ([x], [])
  | x :: y :: more => do
    let down ← lt y x
    let (run, rest) ← runAfter lt down y more
    let run := x :: y :: run
    return (if down then run.reverse else run, rest)

/-- Puts an item behind all of a run that it does not come before. -/
def place (lt : α → α → Except ε Bool) (run : List α) (x : α) : Except ε (List α) := do
  let n ← halve .front (fun y => (!·) <$> lt x y) run
  return run.take n ++ x :: run.drop n

/-- How long runs should be at least, for a list of `total` items: all of it if it
is short, else between 32 and 64, so that the number of runs is a power of two or
little less. -/
def leastRun (total : Nat) (odd : Nat := 0) : Nat :=
  if total < 64 then total + odd else leastRun (total / 2) (max odd (total % 2))

/-- Runs that wait to be merged, the last one first. Each comes with the power of
the bound between it and the next. -/
abbrev Waiting (α : Type) := List (Nat × List α)

/-- The power of the bound between two neighbouring runs in a list of `total`
items, the first of which starts at `start`: how often the list is halved until
the middles of the two runs lie in different parts. -/
def power (total start left right : Nat) : Nat :=
  let first := 2 * start + left
  let second := first + left + right
  ((List.range total).find? fun k => first <<< k / total != second <<< k / total).getD total

/-- Merges `last` with those that wait before it, as long as the bounds between
these have a higher power. -/
def collapse (lt : α → α → Except ε Bool) (bound : Nat) (patience : Nat) (last : List α) :
    Waiting α → Except ε (List α × Waiting α × Nat)
  | [] => .ok (last, [], patience)
  | (p, run) :: rest => do
    if p ≤ bound then return (last, (p, run) :: rest, patience)
    let (last, patience) ← merge lt patience run last
    collapse lt bound patience last rest

/-- Cuts a list of `total` items into runs, in so many rounds, and merges those that
can be merged at once. -/
def gather (lt : α → α → Except ε Bool) (total : Nat) :
    (count patience : Nat) → Waiting α → List α → Except ε (List (List α) × Nat)
  | 0, patience, waiting, _ => .ok (waiting.map (·.2), patience)
  | count + 1, patience, waiting, items => do
    if items.isEmpty then return (waiting.map (·.2), patience)
    let (run, rest) ← headRun lt items
    let short := leastRun total - run.length
    let run ← (rest.take short).foldlM (place lt) run
    let (waiting, patience) ←
      match waiting with
      | [] => pure ([], patience)
      | (_, last) :: before => do
        let start := total - items.length - last.length
        let bound := power total start last.length run.length
        let (last, before, patience) ← collapse lt bound patience last before
        pure ((bound, last) :: before, patience)
    gather lt total count patience ((0, run) :: waiting) (rest.drop short)

/-- Merges all runs, the last one first; the third from the end is merged with the
second if it is shorter than the last. -/
def mergeAll (lt : α → α → Except ε Bool) (patience : Nat) : List (List α) → Except ε (List α)
  | [] => .ok []
  | [run] => .ok run
  | [last, second] => do return (← merge lt patience second last).1
  | last :: second :: third :: rest => do
    if third.length < last.length then
      let (merged, patience) ← merge lt patience third second
      mergeAll lt patience (last :: merged :: rest)
    else
      let (merged, patience) ← merge lt patience second last
      mergeAll lt patience (merged :: third :: rest)
termination_by runs => runs.length

/-- The items in ascending order. Equal ones keep their order. -/
def byRuns (lt : α → α → Except ε Bool) (items : List α) : Except ε (List α) := do
  let (runs, patience) ← gather lt items.length items.length longLead [] items
  mergeAll lt patience runs

end Propositional.Sorting
