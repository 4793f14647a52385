/-
The laid-out table is aligned and faithful. Every line between the two frame lines is made of
one part for each column, and the part of a column takes as many characters as its header: so
a column begins and ends at the same places in all of them (`extract_across`), and cells add up
to the width because their halves and the parity do (`length_rowPart`). Texts of formulas are
made of letters and operators. None of these ends a line or opens a header, so that the text of
the table can be taken apart again (`readBack_drawn`).
-/
import Propositional.Proofs.Lexing.Chunks
import Propositional.Proofs.Printing.Reprint
import Propositional.Proofs.TruthTable.Text

namespace Propositional

open Propositional.Parser

/-! ## The characters of formulas -/

/-- What formulas are made of besides letters. -/
def formulaSigns : List Char := ['~', '&', '|', '<', '-', '>', '(', ')', ' ']

/-- Letters, blanks, operators and parentheses. -/
def isFormulaChar (c : Char) : Bool := Piece.isLetter c || formulaSigns.contains c

theorem Node.all_parenthesise (needed : Bool) (t : String) :
    (parenthesise needed t).toList.all isFormulaChar = t.toList.all isFormulaChar := by
  cases needed with
  | false => rfl
  | true => simp [parenthesise, isFormulaChar, formulaSigns]

theorem Connective.all_symbol (op : Connective) : op.symbol.toList.all isFormulaChar := by
  cases op <;> decide

/-- The text of a formula is made of such characters if the names of its atoms are. -/
theorem Node.text_chars {symbols : Symbols} {n : Node} (h : n.IsFormula)
    (hnames : ∀ i ∈ n.atoms, ∀ name, symbols.name? i = some name →
      name.toList.all Piece.isLetter) {t : String} (ht : n.text symbols = .ok t) :
    t.toList.all isFormulaChar := by
  induction h generalizing t with
  | atom i =>
    have hletters := hnames i (List.mem_singleton_self i) t (text_atom_inv ht)
    rw [List.all_eq_true] at hletters ⊢
    intro c hc
    rw [isFormulaChar, hletters c hc, Bool.true_or]
  | neg _ ih =>
    obtain ⟨u, hu, rfl⟩ := text_neg_inv ht
    have htilde : "~".toList.all isFormulaChar := by decide
    rw [String.toList_append, List.all_append, htilde, all_parenthesise, ih hnames hu, Bool.and_self]
  | group _ ih =>
    obtain ⟨u, hu, rfl⟩ := text_group_inv ht
    exact (all_parenthesise true u).trans (ih hnames hu)
  | binary op _ _ ihl ihr =>
    obtain ⟨u, w, hu, hw, rfl⟩ := text_binary_inv ht
    have hl := ihl (fun i hi => hnames i (List.mem_append_left _ hi)) hu
    have hr := ihr (fun i hi => hnames i (List.mem_append_right _ hi)) hw
    have hblank : " ".toList.all isFormulaChar := by decide
    simp only [String.toList_append, List.all_append, all_parenthesise, hl, hr, hblank,
      op.all_symbol, Bool.and_self]

/-- Characters from the blank to the tilde. None of them ends a line. -/
def isVisible (c : Char) : Bool := ' ' ≤ c && c ≤ '~'

theorem visible_of_letter {c : Char} (h : Piece.isLetter c) : isVisible c := by
  have hupper : 'A'.toNat = 65 ∧ 'Z'.toNat = 90 := by decide
  have hlower : 'a'.toNat = 97 ∧ 'z'.toNat = 122 := by decide
  have hvisible : ' '.toNat = 32 ∧ '~'.toNat = 126 := by decide
  have hrange : 'A'.toNat ≤ c.toNat ∧ c.toNat ≤ 'Z'.toNat ∨
      'a'.toNat ≤ c.toNat ∧ c.toNat ≤ 'z'.toNat := Chunk.isLetter_iff.2 h
  have hgoal : ' '.toNat ≤ c.toNat ∧ c.toNat ≤ '~'.toNat := by omega
  rw [isVisible, Bool.and_eq_true, decide_eq_true_eq, decide_eq_true_eq]
  exact hgoal

theorem visible_of_formulaChar {c : Char} (h : isFormulaChar c) : isVisible c ∧ c ≠ '[' := by
  rw [isFormulaChar, Bool.or_eq_true] at h
  rcases h with h | h
  · refine ⟨visible_of_letter h, ?_⟩
    rintro rfl
    cases h
  · have hall : formulaSigns.all fun d => isVisible d && d != '[' := by decide
    have hc := List.all_eq_true.1 hall c (List.contains_iff_mem.1 h)
    rwa [Bool.and_eq_true, bne_iff_ne] at hc

namespace TruthTable

/-! ## What stands where -/

/-- The lines of a text. -/
def linesOf (text : String) : List (List Char) := text.toList.splitOn '\n'

/-- Where column number `j` begins in every line: behind the columns before it. -/
def offset (columns : List (String × Column)) (j : Nat) : Nat := width (columns.take j)

/-- What line number `i` has from where column number `j` begins to where the next one does. -/
def within (text : String) (columns : List (String × Column)) (i j : Nat) : List Char :=
  ((linesOf text)[i]?.getD []).extract (offset columns j) (offset columns (j + 1))

/-- A table with these columns is laid out in a text. -/
structure LaidOut (mode : DisplayMode) (columns : List (String × Column)) (rows : Nat)
    (text : String) : Prop where
  /-- No character within a line is one that ends lines. -/
  visible : ∀ line ∈ linesOf text, line.all isVisible
  /-- There are a line for each row and four more. -/
  count : (linesOf text).length = rows + 4
  /-- The first and the last line are dashes. -/
  frames : ∀ {i}, i = 0 ∨ i = rows + 3 →
    (linesOf text)[i]? = some (List.replicate (width columns - 1) '-')
  /-- All other lines are as wide as the columns together. -/
  full : ∀ {i line}, 0 < i → i < rows + 3 → (linesOf text)[i]? = some line →
    line.length = width columns
  /-- Next comes the line of the headers. -/
  headers : ∀ {j column}, columns[j]? = some column →
    within text columns 1 j = ("[ " ++ column.1 ++ " ] ").toList
  /-- There is a rule under each header. -/
  rules : ∀ {j column}, columns[j]? = some column →
    within text columns 2 j = ("|" ++ copies (column.1.length + 2) '-' ++ "| ").toList
  /-- In each row, a column has the glyph of its truth value between blanks; to the right
  there is one more if the formula has an even number of characters. -/
  cells : ∀ {i j column}, i < rows → columns[j]? = some column →
    ∃ (byte : UInt8) (left right : Nat), column.2[i]? = some byte ∧
      within text columns (i + 3) j =
        ("|" ++ copies left ' ' ++ mode.glyph byte ++ copies right ' ' ++ "| ").toList ∧
      left + right = column.1.length + 1 ∧
      right = if column.1.length % 2 = 1 then left else left + 1

variable {columns : List (String × Column)} {part : String × Column → String}

theorem toList_across (part : String × Column → String) (columns : List (String × Column)) :
    (across part columns).toList = columns.flatMap fun column => (part column).toList := by
  rw [across, String.toList_join, List.flatMap_map]

theorem columnWidth_eq (column : String × Column) : columnWidth column = column.1.length + 5 := by
  simp only [columnWidth, header, String.length_append]
  have hopen : "[ ".length = 2 := rfl
  have hclose : " ] ".length = 3 := rfl
  omega

@[simp] theorem length_copies (n : Nat) (c : Char) : (copies n c).length = n := by
  rw [copies, String.length_ofList, List.length_replicate]

theorem length_glyph (mode : DisplayMode) (b : Bool) : (mode.glyph b).length = 1 := by
  cases mode <;> cases b <;> rfl

theorem length_ruleUnder (column : String × Column) :
    (ruleUnder (columnWidth column)).length = columnWidth column := by
  have hbar : "|".length = 1 := rfl
  have hend : "| ".length = 2 := rfl
  simp only [ruleUnder, String.length_append, length_copies, columnWidth_eq]
  omega

/-- The halves of the width, with the glyph and three characters of the bars, are the width. -/
theorem length_rowPart (mode : DisplayMode) (i : Nat) (column : String × Column) :
    (rowPart mode i column).length = columnWidth column := by
  have hbar : "|".length = 1 := rfl
  have hend : "| ".length = 2 := rfl
  simp only [rowPart, cell, String.length_append, length_copies, length_glyph, columnWidth_eq]
  omega

theorem offset_succ {j : Nat} {column : String × Column} (h : columns[j]? = some column) :
    offset columns (j + 1) = offset columns j + columnWidth column := by
  rw [offset, offset, List.take_add_one, h, width_append]
  rfl

/-- What stands between the offsets of a column is its part of the line: the parts before it
take as many characters as the columns are wide. -/
theorem extract_across (hpart : ∀ column, (part column).length = columnWidth column)
    {j : Nat} {column : String × Column} (h : columns[j]? = some column) :
    (across part columns).toList.extract (offset columns j) (offset columns (j + 1)) =
      (part column).toList := by
  have hcolumns : columns.take j ++ column :: columns.drop (j + 1) = columns := by
    obtain ⟨hj, rfl⟩ := List.getElem?_eq_some_iff.1 h
    rw [← List.drop_eq_getElem_cons hj, List.take_append_drop]
  have hbefore : (across part (columns.take j)).toList.length = offset columns j := by
    rw [String.length_toList, length_across hpart, offset]
  have hsplit : (across part columns).toList =
      (across part (columns.take j)).toList ++
        ((part column).toList ++ (across part (columns.drop (j + 1))).toList) := by
    calc (across part columns).toList
        = (across part (columns.take j ++ column :: columns.drop (j + 1))).toList := by
          rw [hcolumns]
      _ = _ := by simp only [toList_across, List.flatMap_append, List.flatMap_cons]
  rw [List.extract_eq_take_drop, hsplit, ← hbefore, List.drop_left, hbefore, offset_succ h,
    Nat.add_sub_cancel_left, ← hpart, ← String.length_toList, List.take_left]

/-! ## The lines of a table -/

/-- Columns with visible texts that have no bracket, and a truth value for each row. -/
structure Drawable (columns : List (String × Column)) (rows : Nat) : Prop where
  visible : ∀ column ∈ columns, column.1.toList.all isVisible
  unbracketed : ∀ column ∈ columns, '[' ∉ column.1.toList
  values : ∀ column ∈ columns, column.2.length = rows

theorem all_copies {c : Char} (hc : isVisible c) (n : Nat) : (copies n c).toList.all isVisible := by
  rw [copies, String.toList_ofList, List.all_eq_true]
  intro d hd
  rwa [(List.mem_replicate.1 hd).2]

theorem all_across (hpart : ∀ column ∈ columns, (part column).toList.all isVisible) :
    (across part columns).toList.all isVisible := by
  rw [toList_across, List.all_flatMap, List.all_eq_true]
  exact hpart

theorem all_drawn {rows : Nat} (h : Drawable columns rows) (mode : DisplayMode) :
    ∀ line ∈ drawn mode columns rows, line.toList.all isVisible := by
  have hdash := all_copies (c := '-') (by decide)
  have hblank := all_copies (c := ' ') (by decide)
  have hbar : "|".toList.all isVisible := by decide
  have hend : "| ".toList.all isVisible := by decide
  have hopen : "[ ".toList.all isVisible := by decide
  have hclose : " ] ".toList.all isVisible := by decide
  have hglyph : ∀ b, (mode.glyph b).toList.all isVisible := by
    cases mode <;> decide
  intro line hline
  simp only [drawn, List.cons_append, List.nil_append, List.mem_cons, List.mem_append, List.mem_map,
    List.not_mem_nil, or_false] at hline
  rcases hline with rfl | rfl | rfl | ⟨i, -, rfl⟩ | rfl
  · exact hdash _
  · refine all_across fun column hcolumn => ?_
    simp only [header, String.toList_append, List.all_append, hopen, hclose,
      h.visible column hcolumn, Bool.and_self]
  · refine all_across fun column _ => ?_
    simp only [ruleUnder, String.toList_append, List.all_append, hbar, hend, hdash, Bool.and_self]
  · refine all_across fun column _ => ?_
    simp only [rowPart, cell, String.toList_append, List.all_append, hbar, hend, hblank, hglyph,
      Bool.and_self]
  · exact hdash _

theorem linesOf_drawn {rows : Nat} (h : Drawable columns rows) (mode : DisplayMode) :
    linesOf ("\n".intercalate (drawn mode columns rows)) =
      (drawn mode columns rows).map String.toList := by
  rw [linesOf, String.toList_intercalate]
  refine List.splitOn_intercalate _ (fun line hline hbreak => ?_) (by simp [drawn])
  obtain ⟨text, htext, rfl⟩ := List.mem_map.1 hline
  have hvisible := List.all_eq_true.1 (all_drawn h mode text htext) '\n' hbreak
  cases hvisible

theorem length_drawn (mode : DisplayMode) (columns : List (String × Column)) (rows : Nat) :
    (drawn mode columns rows).length = rows + 4 := by
  simp [drawn]

theorem drawn_row {mode : DisplayMode} {rows i : Nat} (h : i < rows) :
    (drawn mode columns rows)[i + 3]? = some (across (rowPart mode i) columns) := by
  simp [drawn, List.getElem?_append, h]

theorem drawn_last {mode : DisplayMode} {rows : Nat} :
    (drawn mode columns rows)[rows + 3]? = some (frame columns) := by
  simp [drawn]

theorem within_drawn (part : String × Column → String) {rows i j : Nat}
    {column : String × Column} {mode : DisplayMode} (h : Drawable columns rows)
    (hline : (drawn mode columns rows)[i]? = some (across part columns))
    (hpart : ∀ column, (part column).length = columnWidth column)
    (hcolumn : columns[j]? = some column) :
    within ("\n".intercalate (drawn mode columns rows)) columns i j = (part column).toList := by
  rw [within, linesOf_drawn h, List.getElem?_map, hline, Option.map_some, Option.getD_some,
    extract_across hpart hcolumn]

/-- The halves of the width differ by the blank that an odd width leaves. -/
theorem rowPart_eq (mode : DisplayMode) (i : Nat) (column : String × Column) :
    ∃ left right, rowPart mode i column =
        "|" ++ copies left ' ' ++ mode.glyph (column.2[i]?.getD 0) ++ copies right ' ' ++ "| " ∧
      left + right = column.1.length + 1 ∧
      right = if column.1.length % 2 = 1 then left else left + 1 := by
  refine ⟨_, _, rfl, ?_, ?_⟩ <;> rw [columnWidth_eq]
  · omega
  · split <;> omega

theorem laidOut_drawn {rows : Nat} (h : Drawable columns rows) (mode : DisplayMode) :
    LaidOut mode columns rows ("\n".intercalate (drawn mode columns rows)) := by
  constructor
  case visible =>
    intro line hline
    rw [linesOf_drawn h] at hline
    obtain ⟨text, htext, rfl⟩ := List.mem_map.1 hline
    exact all_drawn h mode text htext
  case count => rw [linesOf_drawn h, List.length_map, length_drawn]
  case frames =>
    intro i hi
    have hframe : (drawn mode columns rows)[i]? = some (frame columns) := by
      rcases hi with rfl | rfl
      · rfl
      · exact drawn_last
    rw [linesOf_drawn h, List.getElem?_map, hframe, Option.map_some, frame, copies,
      String.toList_ofList]
  case full =>
    intro i line hpos hlast hline
    rw [linesOf_drawn h, List.getElem?_map, Option.map_eq_some_iff] at hline
    obtain ⟨text, htext, rfl⟩ := hline
    rw [String.length_toList]
    match i, hpos, hlast, htext with
    | 1, _, _, htext =>
      cases htext
      exact length_across (fun _ => rfl) columns
    | 2, _, _, htext =>
      cases htext
      exact length_across length_ruleUnder columns
    | i + 3, _, hlast, htext =>
      rw [drawn_row (Nat.lt_of_add_lt_add_right hlast), Option.some.injEq] at htext
      rw [← htext, length_across (length_rowPart mode i)]
  case headers =>
    intro j column hcolumn
    exact within_drawn (fun column => header column.1) h rfl (fun _ => rfl) hcolumn
  case rules =>
    intro j column hcolumn
    rw [within_drawn (fun column => ruleUnder (columnWidth column)) h rfl length_ruleUnder hcolumn,
      ruleUnder, columnWidth_eq]
    rfl
  case cells =>
    intro i j column hi hcolumn
    have hlength := h.values column (List.mem_of_getElem? hcolumn)
    obtain ⟨left, right, hpart, hsum, hparity⟩ := rowPart_eq mode i column
    refine ⟨column.2[i], left, right, List.getElem?_eq_getElem (hlength ▸ hi), ?_, hsum, hparity⟩
    rw [within_drawn (rowPart mode i) h (drawn_row hi) (length_rowPart mode i) hcolumn, hpart,
      List.getElem?_eq_getElem (hlength ▸ hi), Option.getD_some]

/-! ## Reading a table back -/

/-- The texts in a line of headers. Behind each opening bracket there are a blank, the text, a
blank, the closing bracket and a blank. -/
def readHeaders (line : List Char) : List String :=
  (line.splitOn '[').tail.map fun part => String.ofList (part.tail.take (part.length - 4))

/-- What a glyph stands for. -/
def ofGlyph? : Char → Option Bool
  | '0' | 'F' => some false
  | '1' | 'T' => some true
  | _ => none

/-- The truth values in a row. -/
def readRow (line : List Char) : List Bool := line.filterMap ofGlyph?

/-- The texts over the columns and the truth values under them. -/
def readBack (text : String) : List (String × List Bool) :=
  let rows := ((linesOf text).drop 3).dropLast.map readRow
  (readHeaders ((linesOf text)[1]?.getD [])).mapIdx fun j title =>
    (title, rows.map fun row => row[j]?.getD false)

theorem flatMap_cons_eq_intercalate {α : Type} (x : α) (first : List α) (parts : List (List α)) :
    first ++ parts.flatMap (x :: ·) = [x].intercalate (first :: parts) := by
  induction parts generalizing first with
  | nil => simp
  | cons part parts ih =>
    rw [List.flatMap_cons, List.cons_append, ih, List.intercalate_cons_cons]
    simp

/-- Brackets open headers only. -/
theorem readHeaders_across {rows : Nat} (h : Drawable columns rows) :
    readHeaders (across (fun column => header column.1) columns).toList = columns.map (·.1) := by
  have hline : (across (fun column => header column.1) columns).toList =
      [] ++ (columns.map fun column => ' ' :: (column.1.toList ++ [' ', ']', ' '])).flatMap
        ('[' :: ·) := by
    rw [toList_across, List.nil_append, List.flatMap_map]
    simp only [header, String.toList_append, List.append_assoc]
    rfl
  have hfree : ∀ part ∈ [] :: columns.map fun column => ' ' :: (column.1.toList ++ [' ', ']', ' ']),
      '[' ∉ part := by
    intro part hpart
    rcases List.mem_cons.1 hpart with rfl | hpart
    · exact List.not_mem_nil
    · obtain ⟨column, hcolumn, rfl⟩ := List.mem_map.1 hpart
      simp [h.unbracketed column hcolumn]
  rw [readHeaders, hline, flatMap_cons_eq_intercalate,
    List.splitOn_intercalate _ hfree (List.cons_ne_nil _ _), List.tail_cons, List.map_map]
  refine List.map_congr_left fun column _ => ?_
  have hlength : (' ' :: (column.1.toList ++ [' ', ']', ' '])).length - 4 =
      column.1.toList.length := by simp
  rw [Function.comp_apply, hlength, List.tail_cons, List.take_left, String.ofList_toList]

/-- A cell has one character that is neither bar nor blank. -/
theorem readRow_across (mode : DisplayMode) (i : Nat) (columns : List (String × Column)) :
    readRow (across (rowPart mode i) columns).toList =
      columns.map fun column => (column.2[i]?.getD 0 : UInt8) != 0 := by
  have hglyph : ∀ b, (mode.glyph b).toList.filterMap ofGlyph? = [b] := by
    cases mode <;> decide
  have hblanks : ∀ n, (copies n ' ').toList.filterMap ofGlyph? = [] := by
    intro n
    rw [copies, String.toList_ofList, List.filterMap_replicate_of_none rfl]
  have hbar : "|".toList.filterMap ofGlyph? = [] := by decide
  have hend : "| ".toList.filterMap ofGlyph? = [] := by decide
  rw [readRow, toList_across, List.filterMap_flatMap, List.map_eq_flatMap]
  simp only [rowPart, cell, String.toList_append, List.filterMap_append, hblanks, hbar, hend,
    List.nil_append, List.append_nil, hglyph]

theorem map_range_getD {α β : Type} (f : α → β) (default : α) (xs : List α) :
    (List.range xs.length).map (fun i => f (xs[i]?.getD default)) = xs.map f := by
  refine List.ext_getElem (by simp) fun i hi _ => ?_
  rw [List.length_map, List.length_range] at hi
  simp [hi]

theorem readBack_drawn {rows : Nat} (h : Drawable columns rows) (mode : DisplayMode) :
    readBack ("\n".intercalate (drawn mode columns rows)) =
      columns.map fun column => (column.1, column.2.map (· != 0)) := by
  have hheaders : (drawn mode columns rows)[1]? =
      some (across (fun column => header column.1) columns) := rfl
  have hrows : (((drawn mode columns rows).map String.toList).drop 3).dropLast.map readRow =
      (List.range rows).map fun i => columns.map fun column => (column.2[i]?.getD 0 : UInt8) != 0 := by
    simp [drawn, readRow_across, Function.comp_def]
  rw [readBack, linesOf_drawn h, hrows, List.getElem?_map, hheaders, Option.map_some,
    Option.getD_some, readHeaders_across h]
  refine List.ext_getElem? fun j => ?_
  rw [List.getElem?_mapIdx, List.getElem?_map, List.getElem?_map]
  cases hcolumn : columns[j]? with
  | none => rfl
  | some column =>
    have hvalues : (List.range rows).map (fun i => (column.2[i]?.getD 0 : UInt8) != 0) =
        column.2.map (· != 0) := by
      rw [← h.values column (List.mem_of_getElem? hcolumn)]
      exact map_range_getD (fun byte : UInt8 => byte != 0) 0 column.2
    rw [List.map_map]
    simp only [Function.comp_def, List.getElem?_map, hcolumn, Option.map_some, Option.getD_some,
      hvalues]

/-! ## Tables of what has been read -/

/-- The atoms of a formula that has been read from a text have the names that stand there. -/
theorem exists_name_of_read {source previous : String} {symbols : Symbols} {e : Node}
    (hread : (Stream.ofLexemes (Lexeme.ofSource source previous) symbols).parse.outcome = .ok e)
    (he : e.IsFormula) : ∀ i ∈ e.atoms, ∃ name, IsName name ∧
      (Stream.ofLexemes (Lexeme.ofSource source previous) symbols).parse.stream.symbols.name? i =
        some name := by
  obtain ⟨houtcome, hsymbols, -⟩ := parse_ofLexemes (Lexeme.ofSource source previous) symbols
  rw [houtcome] at hread
  rw [hsymbols, Grammar.parse_stream hread]
  intro i hi
  rw [((Grammar.parse_iff.1 hread).derives he).atoms] at hi
  obtain ⟨name, hname, rfl⟩ := List.mem_map.1 hi
  refine ⟨name, Lexeme.isName_identifier hname, Symbols.name?_indexOf ?_⟩
  rw [Symbols.afterTokens, Symbols.mem_internAll]
  exact .inr hname

theorem drawable_of_titled {t : TruthTable} (h : Tabulates t.atoms t.columns)
    (hnamed : ∀ i ∈ t.atoms, ∃ name, IsName name ∧ t.symbols.name? i = some name)
    {columns : List (String × Column)} (hcolumns : t.titled = .ok columns) :
    Drawable columns t.rows := by
  have hchars : ∀ column ∈ columns, ∀ c ∈ column.1.toList, isFormulaChar c := by
    intro column hcolumn
    obtain ⟨n, htext, hknown⟩ := known_of_titled h hcolumns hcolumn
    refine List.all_eq_true.1 (Node.text_chars (h.formula hknown) (fun i hi name hname => ?_) htext)
    obtain ⟨name', hletters, hname'⟩ := hnamed i (h.among hknown i hi)
    rw [hname'] at hname
    cases hname
    exact hletters.letters
  constructor
  case visible =>
    intro column hcolumn
    exact List.all_eq_true.2 fun c hc => (visible_of_formulaChar (hchars column hcolumn c hc)).1
  case unbracketed =>
    intro column hcolumn hbracket
    exact (visible_of_formulaChar (hchars column hcolumn '[' hbracket)).2 rfl
  case values => exact fun column hcolumn => length_of_titled h hcolumns hcolumn

/-- **The laid-out table is aligned and faithful.** Take a formula that has been read from any
text, with any names known before. It has a table, with the distinct atoms of the formula, and
the columns of the table have texts. Whether truth values are shown as bits or as letters, the
table is laid out in a text: a line of dashes, the headers, the rules, a line for each
assignment to the atoms, and again the dashes; each column takes the same places in all lines
between, and each truth value is centred. From the text alone, the texts over the columns and
the truth values under them can be read back. -/
theorem layout_is_aligned_and_faithful {source previous : String} {symbols : Symbols} {e : Node}
    (hread : (Stream.ofLexemes (Lexeme.ofSource source previous) symbols).parse.outcome = .ok e)
    (he : e.IsFormula) :
    ∃ t columns,
      ofFormula e (Stream.ofLexemes (Lexeme.ofSource source previous) symbols).parse.stream.symbols =
        .ok t ∧
      t.atoms.Nodup ∧ (∀ i, i ∈ t.atoms ↔ i ∈ e.atoms) ∧
      t.titled = .ok columns ∧
      ∀ mode, ∃ text, t.text mode = .ok text ∧
        LaidOut mode columns (Nat.pow 2 t.atoms.length) text ∧
        readBack text = columns.map fun column => (column.1, column.2.map (· != 0)) := by
  have hnames := exists_name_of_read hread he
  generalize (Stream.ofLexemes (Lexeme.ofSource source previous) symbols).parse.stream.symbols =
    names at hnames ⊢
  obtain ⟨t, ht, -, hatoms, htabulates, -⟩ := ofFormula_tabulates he names
  have hmem : ∀ i, i ∈ t.atoms ↔ i ∈ e.atoms := by
    intro i
    rw [hatoms, mem_insertAll]
    simp
  have hascending : t.atoms.Pairwise (· < ·) := hatoms ▸ insertAll_ascending .nil
  have hnamed : ∀ i ∈ t.atoms, ∃ name, IsName name ∧ t.symbols.name? i = some name := by
    intro i hi
    rw [ofFormula_symbols ht]
    exact hnames i ((hmem i).1 hi)
  obtain ⟨columns, hcolumns⟩ := titled_ok htabulates fun i hi => by
    obtain ⟨name, -, hname⟩ := hnamed i hi
    rw [hname, Option.isSome_some]
  have hdrawable : Drawable columns t.rows := drawable_of_titled htabulates hnamed hcolumns
  refine ⟨t, columns, ht, hascending.imp fun h => Int.ne_of_lt h, hmem, hcolumns, fun mode => ?_⟩
  exact ⟨_, text_of_titled htabulates hcolumns mode, laidOut_drawn hdrawable mode,
    readBack_drawn hdrawable mode⟩

/-- A conjunction in a table of bits and in one of letters. -/
theorem layout_is_aligned_and_faithful_conjunction :
    let reading := (Stream.ofLexemes (Lexeme.ofSource "p & q")).parse
    reading.outcome = .ok (.binary (.atom 0) .conj (.atom 1)) ∧
      ∃ bits letters,
        LaidOut .bits [("q", [0, 0, 1, 1]), ("p", [0, 1, 0, 1]), ("p & q", [0, 0, 0, 1])] 4 bits ∧
        LaidOut .bool [("q", [0, 0, 1, 1]), ("p", [0, 1, 0, 1]), ("p & q", [0, 0, 0, 1])] 4
          letters ∧
        readBack bits = readBack letters := by
  intro reading
  have hread : reading.outcome = .ok (.binary (.atom 0) .conj (.atom 1)) := rfl
  obtain ⟨t, columns, ht, -, -, hcolumns, hlaid⟩ :=
    layout_is_aligned_and_faithful hread (.binary .conj (.atom 0) (.atom 1))
  obtain ⟨bits, -, hbits, hreadBits⟩ := hlaid .bits
  obtain ⟨letters, -, hletters, hreadLetters⟩ := hlaid .bool
  have hknown : ((ofFormula (.binary (.atom 0) .conj (.atom 1)) reading.stream.symbols).toOption.bind
      fun t => t.titled.toOption.map fun columns => (columns, t.atoms.length)) =
      some ([("q", [0, 0, 1, 1]), ("p", [0, 1, 0, 1]), ("p & q", [0, 0, 0, 1])], 2) := by
    decide +kernel
  rw [ht] at hknown
  change (t.titled.toOption.map fun columns => (columns, t.atoms.length)) = _ at hknown
  rw [hcolumns] at hknown
  obtain ⟨rfl, hsize⟩ := Prod.mk.inj (Option.some.inj hknown)
  rw [hsize] at hbits hletters
  exact ⟨hread, bits, letters, hbits, hletters, hreadBits.trans hreadLetters.symm⟩

end TruthTable

end Propositional
