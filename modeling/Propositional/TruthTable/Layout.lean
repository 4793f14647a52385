/-
The laid-out truth table: one column per expression under its header
`[ formula ] `, each truth value centred under it, between two frame lines.
-/
import Propositional.Node.Printer
import Propositional.TruthTable

namespace Propositional

/-- Whether truth values are shown as `0` and `1` or as `F` and `T`. -/
inductive DisplayMode
  | bits
  | bool
  deriving DecidableEq, Repr, Inhabited

namespace DisplayMode

def label : DisplayMode → String
  | bits => "bits"
  | bool => "bool"

/-- The mode with a label. -/
def ofLabel? (label : String) : Option DisplayMode :=
  [bits, bool].find? (·.label == label)

def toggled : DisplayMode → DisplayMode
  | bits => bool
  | bool => bits

def glyph : DisplayMode → Bool → String
  | bits, false => "0"
  | bits, true => "1"
  | bool, false => "F"
  | bool, true => "T"

end DisplayMode

namespace TruthTable

/-- `n` copies of a character. -/
def copies (n : Nat) (c : Char) : String := String.ofList (List.replicate n c)

/-- The header over the column of an expression with this text. -/
def header (text : String) : String := "[ " ++ text ++ " ] "

/-- The line under a header of this width. -/
def ruleUnder (width : Nat) : String := "|" ++ copies (width - 3) '-' ++ "| "

/-- A glyph centred under a header of this width; an odd blank goes to the right. -/
def cell (width : Nat) (glyph : String) : String :=
  let left := width / 2 - 2
  "|" ++ copies left ' ' ++ glyph ++ copies (left + width % 2) ' ' ++ "| "

/-- The truth value of a column in row `i`. -/
def valueAt (i : Nat) (column : Array UInt8) : Except Fault UInt8 :=
  match column[i]? with
  | some byte => .ok byte
  | none => .error (.noRow i column.size)

/-- Row `i`: the truth value of each column under its header. -/
def row (mode : DisplayMode) (widths : List Nat) (columns : List (Array UInt8)) (i : Nat) :
    Except Fault String := do
  let values ← columns.mapM (valueAt i)
  return String.join
    (List.zipWith (fun width (byte : UInt8) => cell width (mode.glyph byte)) widths values)

/-- The text of a table. -/
def text (t : TruthTable) (mode : DisplayMode) : Except Fault String := do
  let columns ← t.layout
  let headers ← columns.mapM fun (n, _) => do return header (← n.text t.symbols)
  let widths := headers.map String.length
  let frame := copies ((String.join headers).length - 1) '-'
  let values := columns.map (·.2.toArray)
  let rows ← (List.range t.rows).mapM (row mode widths values)
  return "\n".intercalate
    ([frame, String.join headers, String.join (widths.map ruleUnder)] ++ rows ++ [frame])

end TruthTable

end Propositional
