/-
Every truth table of a formula can be laid out: its columns belong to formulas
over its atoms, so all headers have a text as soon as the atoms have names, and
each column has a truth value in each row. The columns with these texts are all
that the laid-out table depends on; it is put together line by line, and each
line column by column (`text_of_titled`).
-/
import Propositional.Proofs.Printing.Text
import Propositional.Proofs.TruthTable.Enumeration
import Propositional.TruthTable.Layout

namespace Propositional

theorem mapM_ok {α β : Type} {f : α → Except Fault β} {xs : List α}
    (h : ∀ x ∈ xs, ∃ y, f x = .ok y) : ∃ ys, xs.mapM f = .ok ys := by
  induction xs with
  | nil => exact ⟨[], rfl⟩
  | cons x xs ih =>
    obtain ⟨y, hy⟩ := h x List.mem_cons_self
    obtain ⟨ys, hys⟩ := ih fun x' hx' => h x' (List.mem_cons_of_mem _ hx')
    refine ⟨y :: ys, ?_⟩
    rw [List.mapM_cons, hy, hys]
    rfl

theorem mapM_eq {α β : Type} {f : α → Except Fault β} {g : α → β} {xs : List α}
    (h : ∀ x ∈ xs, f x = .ok (g x)) : xs.mapM f = .ok (xs.map g) := by
  induction xs with
  | nil => rfl
  | cons x xs ih =>
    rw [List.mapM_cons, h x List.mem_cons_self, ih fun x' hx' => h x' (List.mem_cons_of_mem _ hx')]
    rfl

theorem mapM_map_ok {α β γ : Type} {f : α → Except Fault β} {g : α → Except Fault γ} {k : β → γ}
    (hstep : ∀ x y, f x = .ok y → g x = .ok (k y)) {xs : List α} {ys : List β}
    (h : xs.mapM f = .ok ys) : xs.mapM g = .ok (ys.map k) := by
  induction xs generalizing ys with
  | nil =>
    cases h
    rfl
  | cons x xs ih =>
    rw [List.mapM_cons] at h
    obtain ⟨y, hy, h⟩ := bind_eq_ok h
    obtain ⟨ys, hys, h⟩ := bind_eq_ok h
    cases h
    rw [List.mapM_cons, hstep x y hy, ih hys]
    rfl

theorem exists_of_mem_mapM {α β : Type} {f : α → Except Fault β} {xs : List α} {ys : List β}
    (h : xs.mapM f = .ok ys) {y : β} (hy : y ∈ ys) : ∃ x ∈ xs, f x = .ok y := by
  induction xs generalizing ys with
  | nil =>
    cases h
    cases hy
  | cons x xs ih =>
    rw [List.mapM_cons] at h
    obtain ⟨z, hz, h⟩ := bind_eq_ok h
    obtain ⟨zs, hzs, h⟩ := bind_eq_ok h
    cases h
    rcases List.mem_cons.1 hy with rfl | hy
    · exact ⟨x, List.mem_cons_self, hz⟩
    · obtain ⟨x', hx', hfx⟩ := ih hzs hy
      exact ⟨x', List.mem_cons_of_mem _ hx', hfx⟩

namespace TruthTable

theorem ofFormula_symbols {formula : Node} {symbols : Symbols} {t : TruthTable}
    (h : ofFormula formula symbols = .ok t) : t.symbols = symbols := by
  obtain ⟨atoms, -, h⟩ := bind_eq_ok h
  split at h
  · cases h
    rfl
  · cases h

/-! ## The columns under their texts -/

/-- The columns shown, each with the text over it. -/
def titled (t : TruthTable) : Except Fault (List (String × Column)) := do
  (← t.layout).mapM fun entry => do return (← entry.1.text t.symbols, entry.2)

variable {t : TruthTable} {layout : List (Node × Column)} {columns : List (String × Column)}

theorem titled_ok (h : Tabulates t.atoms t.columns)
    (hnamed : ∀ i ∈ t.atoms, (t.symbols.name? i).isSome) : ∃ columns, t.titled = .ok columns := by
  have hlayout := layout_eq h
  rw [titled, hlayout]
  refine mapM_ok fun entry hentry => ?_
  obtain ⟨hcolumn, -⟩ := (mem_layout_iff h hlayout).1 hentry
  obtain ⟨text, htext⟩ := Node.text_formula (h.formula hcolumn) fun i hi =>
    hnamed i (h.among hcolumn i hi)
  exact ⟨(text, entry.2), by rw [htext]; rfl⟩

/-- A column shown is a known one, under the text of its formula. -/
theorem known_of_titled (h : Tabulates t.atoms t.columns) (htitled : t.titled = .ok columns)
    {column : String × Column} (hcolumn : column ∈ columns) :
    ∃ n, n.text t.symbols = .ok column.1 ∧ t.columns.get? n = some column.2 := by
  obtain ⟨layout, hlayout, htitled⟩ := bind_eq_ok htitled
  obtain ⟨entry, hentry, hstep⟩ := exists_of_mem_mapM htitled hcolumn
  obtain ⟨text, htext, hstep⟩ := bind_eq_ok hstep
  cases hstep
  exact ⟨entry.1, htext, ((mem_layout_iff h hlayout).1 hentry).1⟩

theorem length_of_titled (h : Tabulates t.atoms t.columns) (htitled : t.titled = .ok columns)
    {column : String × Column} (hcolumn : column ∈ columns) : column.2.length = t.rows := by
  obtain ⟨n, -, hknown⟩ := known_of_titled h htitled hcolumn
  rw [h.values hknown, length_truthColumn, rows]

/-- What is made of each column laid out can be made of the column under its text. -/
theorem mapM_titled {α : Type} {f : Node × Column → Except Fault α} {g : String × Column → α}
    (hstep : ∀ n text column, n.text t.symbols = .ok text → f (n, column) = .ok (g (text, column)))
    (htitled : layout.mapM (fun entry => do return (← entry.1.text t.symbols, entry.2)) =
      .ok columns) : layout.mapM f = .ok (columns.map g) := by
  refine mapM_map_ok (fun entry column hcolumn => ?_) htitled
  obtain ⟨text, htext, hcolumn⟩ := bind_eq_ok hcolumn
  cases hcolumn
  exact hstep entry.1 text entry.2 htext

/-! ## The lines of the text -/

/-- A column is as wide as its header. -/
def columnWidth (column : String × Column) : Nat := (header column.1).length

/-- The width of all columns. -/
def width : List (String × Column) → Nat
  | [] => 0
  | column :: columns => columnWidth column + width columns

theorem width_append (left right : List (String × Column)) :
    width (left ++ right) = width left + width right := by
  induction left with
  | nil => rw [List.nil_append, width, Nat.zero_add]
  | cons column left ih => rw [List.cons_append, width, width, ih, Nat.add_assoc]

def frame (columns : List (String × Column)) : String := copies (width columns - 1) '-'

/-- A line that has a part for each column. -/
def across (part : String × Column → String) (columns : List (String × Column)) : String :=
  String.join (columns.map part)

/-- The parts of a line take the width of all columns if each takes that of its own. -/
theorem length_across {part : String × Column → String}
    (hpart : ∀ column, (part column).length = columnWidth column)
    (columns : List (String × Column)) : (across part columns).length = width columns := by
  induction columns with
  | nil => rfl
  | cons column columns ih =>
    rw [across] at ih
    rw [across, List.map_cons, String.join_cons, String.length_append, hpart, ih, width]

/-- The cell of a column in row `i`. -/
def rowPart (mode : DisplayMode) (i : Nat) (column : String × Column) : String :=
  cell (columnWidth column) (mode.glyph (column.2[i]?.getD 0))

/-- All lines. -/
def drawn (mode : DisplayMode) (columns : List (String × Column)) (rows : Nat) : List String :=
  [frame columns, across (fun column => header column.1) columns,
      across (fun column => ruleUnder (columnWidth column)) columns] ++
    (List.range rows).map (fun i => across (rowPart mode i) columns) ++ [frame columns]

theorem row_eq (mode : DisplayMode) {i : Nat} (h : ∀ column ∈ columns, i < column.2.length) :
    row mode (columns.map columnWidth) (columns.map (·.2.toArray)) i =
      .ok (across (rowPart mode i) columns) := by
  have hvalues : (columns.map (·.2.toArray)).mapM (valueAt i) =
      .ok (columns.map fun column => column.2[i]?.getD 0) := by
    rw [List.mapM_map]
    refine mapM_eq fun column hcolumn => ?_
    rw [Function.comp_apply, valueAt, List.getElem?_toArray,
      List.getElem?_eq_getElem (h column hcolumn), Option.getD_some]
  rw [row, hvalues]
  change Except.ok (String.join _) = _
  rw [List.zipWith_map, List.zipWith_self]
  rfl

theorem text_of_titled (h : Tabulates t.atoms t.columns) (htitled : t.titled = .ok columns)
    (mode : DisplayMode) :
    t.text mode = .ok ("\n".intercalate (drawn mode columns t.rows)) := by
  have hlength : ∀ column ∈ columns, column.2.length = t.rows := fun column =>
    length_of_titled h htitled
  obtain ⟨layout, hlayout, htitled⟩ := bind_eq_ok htitled
  have hheaders : layout.mapM (fun entry => do return header (← entry.1.text t.symbols)) =
      (.ok (columns.map fun column => header column.1) : Except Fault (List String)) := by
    refine mapM_titled (fun n text column htext => ?_) htitled
    rw [htext]
    rfl
  have hvalues : layout.map (·.2.toArray) = columns.map (·.2.toArray) := by
    have hstep : layout.mapM (fun entry => (.ok entry.2.toArray : Except Fault (Array UInt8))) =
        .ok (columns.map (·.2.toArray)) := mapM_titled (fun _ _ _ _ => rfl) htitled
    exact Except.ok.inj ((mapM_eq fun _ _ => rfl).symm.trans hstep)
  have hwidths : (columns.map fun column => header column.1).map String.length =
      columns.map columnWidth := by
    rw [List.map_map]
    rfl
  have hwidth : (String.join (columns.map fun column => header column.1)).length =
      width columns := length_across (fun _ => rfl) columns
  have hrules : String.join ((columns.map columnWidth).map ruleUnder) =
      across (fun column => ruleUnder (columnWidth column)) columns := by
    rw [List.map_map]
    rfl
  have hrow : ∀ i ∈ List.range t.rows,
      row mode (columns.map columnWidth) (columns.map (·.2.toArray)) i =
        .ok (across (rowPart mode i) columns) := fun i hi =>
    row_eq mode fun column hcolumn => by
      rw [hlength column hcolumn]
      exact List.mem_range.1 hi
  rw [text, hlayout]
  simp only [bind, Except.bind] at hheaders ⊢
  rw [hheaders, hvalues]
  simp only [hwidths, hwidth, hrules, mapM_eq hrow]
  rfl

/-- A table whose atoms have names has a text, however truth values are shown. -/
theorem text_ok (h : Tabulates t.atoms t.columns)
    (hnamed : ∀ i ∈ t.atoms, (t.symbols.name? i).isSome) (mode : DisplayMode) :
    ∃ text, t.text mode = .ok text := by
  obtain ⟨columns, hcolumns⟩ := titled_ok h hnamed
  exact ⟨_, text_of_titled h hcolumns mode⟩

end TruthTable

end Propositional
