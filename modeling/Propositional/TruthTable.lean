/-
Truth tables. A table has a row for each of the 2^k assignments to the k
distinct atoms of a formula; in row i, atom number j has bit j of i. For each
sub-expression evaluated so far it keeps a column of truth values, one byte a
row: 1 for true and 0 for false. Connectives are computed by arithmetic on
bytes, which gives truth values only for bytes that are truth values. Further
expressions over the same atoms may be evaluated later; their columns join the
others. Columns of groups are kept but not shown.
-/
import Propositional.Node.Order
import Propositional.OrderedMap
import Propositional.Symbols

namespace Propositional

/-- A byte counts as true unless it is 0. -/
instance truthOfByte : Coe UInt8 Bool := ⟨fun byte => byte != 0⟩

namespace Connective

/-- What the connective makes of two bytes. -/
def onBytes : Connective → UInt8 → UInt8 → UInt8
  | conj, a, b => a &&& b
  | disj, a, b => a ||| b
  | cond, a, b => (1 - a) ||| b
  | bicond, a, b => if a = b then 1 else 0

end Connective

/-- The truth values of an expression, row by row. -/
abbrev Column := List UInt8

/-- The columns known, in the order in which they were computed. -/
abbrev Columns := OrderedMap Node Column

namespace TruthTable

/-- The column of atom number `j` in a table of `rows` rows. -/
def atomColumn (j rows : Nat) : Column :=
  (List.range rows).map fun i => ((i >>> j) &&& 1).toUInt8

/-- The same for any two numbers: there are no rows below row 0 and no bits below bit 0. -/
def bitColumn (j rows : Int) : Column :=
  match j with
  | .ofNat j => atomColumn j rows.toNat
  | .negSucc _ => List.replicate rows.toNat 0

/-- Puts a number into an ascending list that does not hold it yet. -/
def insertAscending (i : Int) : List Int → List Int
  | [] => [i]
  | j :: rest =>
    if i < j then i :: j :: rest
    else if i = j then j :: rest
    else j :: insertAscending i rest

/-- The number of nodes of a tree. -/
def nodeCount : Node → Nat
  | .neg x | .group x => nodeCount x + 1
  | .binary l _ r => nodeCount l + nodeCount r + 1
  | _ => 1

/-- The number of nodes of all trees on a stack. -/
def stackCount : List Node → Nat
  | [] => 0
  | n :: stack => nodeCount n + stackCount stack

/-- Collects the atoms of the trees on a stack, topmost first. A binary node is
replaced by its two sides, the left one on top. -/
def collectFrom (found : List Int) : List Node → Except Fault (List Int)
  | [] => .ok found
  | .atom i :: stack => collectFrom (insertAscending i found) stack
  | .neg x :: stack => collectFrom found (x :: stack)
  | .group x :: stack => collectFrom found (x :: stack)
  | .binary l _ r :: stack => collectFrom found (l :: r :: stack)
  | n :: _ => .error (.notEvaluable n)
  termination_by stack => stackCount stack
  decreasing_by all_goals simp only [stackCount, nodeCount]; omega

/-- The distinct atoms of a formula, ascending, or the leftmost part of the tree
that is no formula. -/
def collectAtoms (n : Node) : Except Fault (List Int) := collectFrom [] [n]

/-- The column of an expression, and the columns known afterwards: those known
before and those of all parts that had to be computed, also where the whole
could not be. -/
def evaluate (columns : Columns) (n : Node) : Except Fault Column × Columns :=
  match columns.get? n with
  | some column => (.ok column, columns)
  | none =>
    match n with
    | .neg x =>
      match evaluate columns x with
      | (.ok values, columns) =>
        let result := values.map (1 - ·)
        (.ok result, columns.insert n result)
      | (.error fault, columns) => (.error fault, columns)
    | .group x =>
      match evaluate columns x with
      | (.ok values, columns) => (.ok values, columns.insert n values)
      | (.error fault, columns) => (.error fault, columns)
    | .binary l op r =>
      match evaluate columns l with
      | (.ok left, columns) =>
        match evaluate columns r with
        | (.ok right, columns) =>
          let result := List.zipWith op.onBytes left right
          (.ok result, columns.insert n result)
        | (.error fault, columns) => (.error fault, columns)
      | (.error fault, columns) => (.error fault, columns)
    | _ => (.error (.notEvaluable n), columns)

end TruthTable

/-- A formula, its atoms in ascending order, and the columns computed so far. -/
structure TruthTable where
  formula : Node
  symbols : Symbols
  atoms : List Int
  columns : Columns
  deriving DecidableEq

namespace TruthTable

/-- One row for each assignment to the atoms. -/
def rows (t : TruthTable) : Nat := Nat.pow 2 t.atoms.length

/-- The columns of the atoms. -/
def atomColumns (atoms : List Int) : Columns :=
  .ofList (atoms.zipIdx.map fun (i, j) => (Node.atom i, atomColumn j (Nat.pow 2 atoms.length)))

/-- The table of a formula. -/
def ofFormula (formula : Node) (symbols : Symbols) : Except Fault TruthTable := do
  let atoms ← collectAtoms formula
  match evaluate (atomColumns atoms) formula with
  | (.ok _, columns) => return ⟨formula, symbols, atoms, columns⟩
  | (.error fault, _) => .error fault

/-- The column of an expression over the atoms of the table, and the table with
all columns computed on the way. -/
def eval (t : TruthTable) (n : Node) : Except Fault Column × TruthTable :=
  let (answer, columns) := evaluate t.columns n
  (answer, { t with columns := columns })

/-- The column shown for an expression. -/
def get (t : TruthTable) (n : Node) : Except Fault Column :=
  if n.isGroup then .error (.noColumn n)
  else
    match t.columns.get? n with
    | some column => .ok column
    | none => .error (.noColumn n)

/-- Whether a column is shown for an expression. -/
def contains (t : TruthTable) (n : Node) : Bool := t.columns.contains n && !n.isGroup

/-- The column of the formula. -/
def result (t : TruthTable) : Except Fault Column :=
  match t.columns.get? t.formula with
  | some column => .ok column
  | none => .error (.noColumn t.formula)

/-- The columns shown, in the order in which they were computed. -/
def shown (t : TruthTable) : List (Node × Column) := t.columns.entries.filter (!·.1.isGroup)

/-- The columns shown, in descending order: atoms, then negations, then binary nodes. -/
def layout (t : TruthTable) : Except Fault (List (Node × Column)) := do
  return (← Node.sortBy (·.1) t.shown.reverse).reverse

def describe (t : TruthTable) : String :=
  "TruthTable(atoms=" ++ toString t.atoms.length ++ ", rows=" ++ toString t.rows ++
    ", columns=" ++ toString t.shown.length ++ ")"

end TruthTable

end Propositional
