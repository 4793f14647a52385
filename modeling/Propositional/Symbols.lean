/-
Symbol tables: the names of atoms in the order in which they first occurred.
A name's index is its place in that order; interning a known name changes
nothing (`intern_known`) and a new one comes last (`intern_new`).
-/
import Propositional.Text.Quoted

namespace Propositional

/-- The names met so far, each once. -/
@[ext]
structure Symbols where
  names : List String
  nodup : names.Nodup
  deriving DecidableEq

namespace Symbols

def empty : Symbols := ⟨[], List.nodup_nil⟩

instance : Inhabited Symbols := ⟨empty⟩

def size (s : Symbols) : Nat := s.names.length

def contains (s : Symbols) (name : String) : Bool := s.names.contains name

/-- Where a name stands in the list, if it does. -/
def position (name : String) : List String → Option Nat
  | [] => none
  | n :: rest => if n = name then some 0 else (position name rest).map (· + 1)

def index? (s : Symbols) (name : String) : Option Nat := position name s.names

/-- The name with an index. Indices below zero count from the end, -1 being the last name. -/
def name? (s : Symbols) (index : Int) : Option String :=
  match index with
  | .ofNat i => s.names[i]?
  | .negSucc i => s.names.reverse[i]?

/-- The index of a name, and the table in which it has it. -/
def intern (s : Symbols) (name : String) : Nat × Symbols :=
  if h : name ∈ s.names then ((s.index? name).getD 0, s)
  else (s.size, ⟨s.names ++ [name], by
    rw [List.nodup_append]
    refine ⟨s.nodup, by simp, ?_⟩
    intro a ha b hb
    obtain rfl := List.mem_singleton.1 hb
    exact fun e => h (e ▸ ha)⟩)

/-- The table in which the listed names were interned one after the other. -/
def ofList (names : List String) : Symbols :=
  names.foldl (fun s name => (s.intern name).2) empty

def describe (s : Symbols) : String :=
  "SymbolTable([" ++ ", ".intercalate (s.names.map Text.quote) ++ "])"

theorem intern_known {s : Symbols} {name : String} (h : name ∈ s.names) :
    (s.intern name).2 = s := by
  simp [intern, h]

theorem intern_new {s : Symbols} {name : String} (h : name ∉ s.names) :
    (s.intern name).1 = s.size ∧ (s.intern name).2.names = s.names ++ [name] := by
  simp [intern, h]

theorem position_eq_some {name : String} {i : Nat} {names : List String}
    (h : position name names = some i) : names[i]? = some name := by
  induction names generalizing i with
  | nil => simp [position] at h
  | cons n rest ih =>
    by_cases hn : n = name
    · obtain rfl : 0 = i := by simpa [position, hn] using h
      simp [hn]
    · simp only [position, if_neg hn, Option.map_eq_some_iff] at h
      obtain ⟨j, hj, rfl⟩ := h
      simpa using ih hj

theorem position_isSome {name : String} {names : List String} (h : name ∈ names) :
    ∃ i, position name names = some i := by
  induction names with
  | nil => simp at h
  | cons n rest ih =>
    by_cases hn : n = name
    · exact ⟨0, by simp [position, hn]⟩
    · obtain ⟨i, hi⟩ := ih (by simpa [Ne.symm hn] using h)
      exact ⟨i + 1, by simp [position, hn, hi]⟩

/-- The index that interning gives denotes the name interned. -/
theorem name?_intern (s : Symbols) (name : String) :
    (s.intern name).2.name? ((s.intern name).1 : Nat) = some name := by
  by_cases h : name ∈ s.names
  · obtain ⟨i, hi⟩ := position_isSome h
    simpa [intern, h, index?, hi, name?] using position_eq_some hi
  · simp [intern, h, name?, size]

end Symbols

end Propositional
