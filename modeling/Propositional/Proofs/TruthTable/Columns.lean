/-
Truth tables hold truth values, whatever is asked of them. `Tabulates` is the
invariant of the columns known: each belongs to a formula over the atoms of the
table, has a 0 or 1 for each row, and has the columns of its parts beside it.
The columns of the atoms have it (`tabulates_atomColumns`). Evaluation is put as
a relation with one case for each way it may go (`Evaluates`); in each of them it
keeps the invariant and all known columns, also where it fails half way
(`Evaluates.keeps`). So both are kept by any sequence of queries.

That a column is made of zeros and ones is what the byte arithmetic rests on:
`1 - b` is the negation of `b` for no other bytes.
-/
import Propositional.Proofs.TruthTable.Atoms
import Propositional.Semantics

namespace Propositional

/-! ## Bytes -/

@[simp] theorem one_sub_toUInt8 (b : Bool) : 1 - b.toUInt8 = (!b).toUInt8 := by
  cases b <;> rfl

/-- On bytes that are truth values a connective is what its truth table says. -/
@[simp] theorem Connective.onBytes_toUInt8 (op : Connective) (a b : Bool) :
    op.onBytes a.toUInt8 b.toUInt8 = (op.apply a b).toUInt8 := by
  cases op <;> cases a <;> cases b <;> rfl

theorem toUInt8_bit (i j : Nat) : ((i >>> j) &&& 1).toUInt8 = (i.testBit j).toUInt8 := by
  have h : (i >>> j) &&& 1 = (i >>> j) % 2 := Nat.and_one_is_mod _
  rw [Nat.testBit, Nat.and_comm 1, h]
  rcases Nat.mod_two_eq_zero_or_one (i >>> j) with h | h <;> rw [h] <;> rfl

namespace TruthTable

/-! ## The truth values of a formula, row by row -/

/-- The assignment of row `i`: atom number `j` has bit `j` of `i`. -/
def assignment (atoms : List Int) (i : Nat) : Int → Bool := fun a => i.testBit (atoms.idxOf a)

/-- The truth values of a formula under the assignments of all rows. -/
def truthColumn (atoms : List Int) (n : Node) : Column :=
  (List.range (Nat.pow 2 atoms.length)).map fun i => (n.holds (assignment atoms i)).toUInt8

theorem truthColumn_neg (atoms : List Int) (x : Node) :
    truthColumn atoms (.neg x) = (truthColumn atoms x).map (1 - ·) := by
  simp [truthColumn]

theorem truthColumn_group (atoms : List Int) (x : Node) :
    truthColumn atoms (.group x) = truthColumn atoms x := rfl

theorem truthColumn_binary (atoms : List Int) (l : Node) (op : Connective) (r : Node) :
    truthColumn atoms (.binary l op r) =
      List.zipWith op.onBytes (truthColumn atoms l) (truthColumn atoms r) := by
  simp [truthColumn, List.zipWith_map, List.zipWith_self]

theorem atomColumn_eq {atoms : List Int} (h : atoms.Nodup) {a : Int} {j : Nat}
    (ha : atoms[j]? = some a) :
    atomColumn j (Nat.pow 2 atoms.length) = truthColumn atoms (.atom a) := by
  obtain ⟨hj, rfl⟩ := List.getElem?_eq_some_iff.1 ha
  have hidx : atoms.idxOf atoms[j] = j := List.Nodup.idxOf_getElem h j hj
  simp only [atomColumn, truthColumn, Node.holds_atom, assignment, hidx, toUInt8_bit]

theorem length_truthColumn (atoms : List Int) (n : Node) :
    (truthColumn atoms n).length = Nat.pow 2 atoms.length := by
  simp [truthColumn]

theorem getElem?_truthColumn {atoms : List Int} (n : Node) {i : Nat}
    (h : i < Nat.pow 2 atoms.length) :
    (truthColumn atoms n)[i]? = some (n.holds (assignment atoms i)).toUInt8 := by
  rw [truthColumn, List.getElem?_map, List.getElem?_range h, Option.map_some]

/-! ## The invariant of the columns known -/

/-- Each column known belongs to a formula over the atoms of the table and holds
its truth values; the columns of the atoms, and with each column those of the
formula's parts, are known. -/
structure Tabulates (atoms : List Int) (columns : Columns) : Prop where
  formula : ∀ {n column}, columns.get? n = some column → n.IsFormula
  among : ∀ {n column}, columns.get? n = some column → ∀ i ∈ n.atoms, i ∈ atoms
  values : ∀ {n column}, columns.get? n = some column → column = truthColumn atoms n
  closed : ∀ {n column}, columns.get? n = some column → ∀ p ∈ n.parts, (columns.get? p).isSome
  base : ∀ i ∈ atoms, (columns.get? (.atom i)).isSome

/-- No known column changes or is lost. -/
def Extends (before after : Columns) : Prop :=
  ∀ n column, before.get? n = some column → after.get? n = some column

theorem Extends.refl (columns : Columns) : Extends columns columns := fun _ _ h => h

theorem Extends.trans {a b c : Columns} (h₁ : Extends a b) (h₂ : Extends b c) : Extends a c :=
  fun n column h => h₂ n column (h₁ n column h)

theorem Extends.isSome {before after : Columns} (h : Extends before after) {n : Node}
    (hn : (before.get? n).isSome) : (after.get? n).isSome := by
  obtain ⟨column, hc⟩ := Option.isSome_iff_exists.1 hn
  rw [h n column hc]
  rfl

theorem Tabulates.extends_insert {atoms : List Int} {columns : Columns}
    (h : Tabulates atoms columns) (n : Node) :
    Extends columns (columns.insert n (truthColumn atoms n)) := by
  intro m column hm
  by_cases hmn : m = n
  · subst hmn
    rw [OrderedMap.get?_insert_self, h.values hm]
  · rw [OrderedMap.get?_insert_of_ne _ hmn, hm]

/-- The column of a formula may join once those of its operands are known. -/
theorem Tabulates.insert {atoms : List Int} {columns : Columns} (h : Tabulates atoms columns)
    {n : Node} (hf : n.IsFormula) (ho : ∀ i ∈ n.atoms, i ∈ atoms)
    (hp : ∀ p ∈ n.parts, p = n ∨ (columns.get? p).isSome) :
    Tabulates atoms (columns.insert n (truthColumn atoms n)) := by
  have hext := h.extends_insert n
  have hself : (columns.insert n (truthColumn atoms n)).get? n = some (truthColumn atoms n) :=
    OrderedMap.get?_insert_self ..
  have hcases : ∀ {m column}, (columns.insert n (truthColumn atoms n)).get? m = some column →
      m = n ∧ column = truthColumn atoms n ∨ columns.get? m = some column := by
    intro m column hm
    by_cases hmn : m = n
    · subst hmn
      rw [hself, Option.some.injEq] at hm
      exact .inl ⟨rfl, hm.symm⟩
    · rw [OrderedMap.get?_insert_of_ne _ hmn] at hm
      exact .inr hm
  constructor
  case formula =>
    intro m column hm
    rcases hcases hm with ⟨rfl, -⟩ | hm
    · exact hf
    · exact h.formula hm
  case among =>
    intro m column hm
    rcases hcases hm with ⟨rfl, -⟩ | hm
    · exact ho
    · exact h.among hm
  case values =>
    intro m column hm
    rcases hcases hm with ⟨rfl, hc⟩ | hm
    · exact hc
    · exact h.values hm
  case closed =>
    intro m column hm p hpm
    rcases hcases hm with ⟨rfl, -⟩ | hm
    · rcases hp p hpm with rfl | hp
      · rw [hself]
        rfl
      · exact hext.isSome hp
    · exact hext.isSome (h.closed hm p hpm)
  case base => exact fun i hi => hext.isSome (h.base i hi)

/-! ## Evaluation -/

/-- Nodes whose column is computed from those of their operands. -/
def isCompound : Node → Bool
  | .neg _ | .group _ | .binary .. => true
  | _ => false

/-- Evaluating a tree where some columns are known has this answer, and these
columns are known then: the column itself is known, or it is computed once the
operands are evaluated, or evaluating an operand ends with a fault. -/
inductive Evaluates : Columns → Node → Except Fault Column → Columns → Prop
  | known {columns : Columns} {n : Node} {column : Column} :
      columns.get? n = some column → Evaluates columns n (.ok column) columns
  | neg {columns after : Columns} {x : Node} {values : Column} :
      Evaluates columns x (.ok values) after →
      Evaluates columns (.neg x) (.ok (values.map (1 - ·)))
        (after.insert (.neg x) (values.map (1 - ·)))
  | negFault {columns after : Columns} {x : Node} {fault : Fault} :
      Evaluates columns x (.error fault) after → Evaluates columns (.neg x) (.error fault) after
  | group {columns after : Columns} {x : Node} {values : Column} :
      Evaluates columns x (.ok values) after →
      Evaluates columns (.group x) (.ok values) (after.insert (.group x) values)
  | groupFault {columns after : Columns} {x : Node} {fault : Fault} :
      Evaluates columns x (.error fault) after → Evaluates columns (.group x) (.error fault) after
  | binary {columns middle after : Columns} {l r : Node} {op : Connective} {left right : Column} :
      Evaluates columns l (.ok left) middle → Evaluates middle r (.ok right) after →
      Evaluates columns (.binary l op r) (.ok (List.zipWith op.onBytes left right))
        (after.insert (.binary l op r) (List.zipWith op.onBytes left right))
  | leftFault {columns after : Columns} {l r : Node} {op : Connective} {fault : Fault} :
      Evaluates columns l (.error fault) after →
      Evaluates columns (.binary l op r) (.error fault) after
  | rightFault {columns middle after : Columns} {l r : Node} {op : Connective} {left : Column}
      {fault : Fault} :
      Evaluates columns l (.ok left) middle → Evaluates middle r (.error fault) after →
      Evaluates columns (.binary l op r) (.error fault) after
  | improper {columns : Columns} {n : Node} :
      columns.get? n = none → isCompound n = false →
      Evaluates columns n (.error (.notEvaluable n)) columns

theorem evaluates (columns : Columns) (n : Node) :
    Evaluates columns n (evaluate columns n).1 (evaluate columns n).2 := by
  induction n generalizing columns with
  | neg x ih =>
    cases hknown : columns.get? (.neg x) with
    | some column =>
      simp only [evaluate, hknown]
      exact .known hknown
    | none =>
      have hx := ih columns
      rcases hev : evaluate columns x with ⟨answer, after⟩
      rw [hev] at hx
      simp only [evaluate, hknown, hev]
      cases answer with
      | ok values => exact .neg hx
      | error fault => exact .negFault hx
  | group x ih =>
    cases hknown : columns.get? (.group x) with
    | some column =>
      simp only [evaluate, hknown]
      exact .known hknown
    | none =>
      have hx := ih columns
      rcases hev : evaluate columns x with ⟨answer, after⟩
      rw [hev] at hx
      simp only [evaluate, hknown, hev]
      cases answer with
      | ok values => exact .group hx
      | error fault => exact .groupFault hx
  | binary l op r ihl ihr =>
    cases hknown : columns.get? (.binary l op r) with
    | some column =>
      simp only [evaluate, hknown]
      exact .known hknown
    | none =>
      have hl := ihl columns
      rcases hevl : evaluate columns l with ⟨leftAnswer, middle⟩
      rw [hevl] at hl
      cases leftAnswer with
      | error fault =>
        simp only [evaluate, hknown, hevl]
        exact .leftFault hl
      | ok left =>
        have hr := ihr middle
        rcases hevr : evaluate middle r with ⟨rightAnswer, after⟩
        rw [hevr] at hr
        simp only [evaluate, hknown, hevl, hevr]
        cases rightAnswer with
        | ok right => exact .binary hl hr
        | error fault => exact .rightFault hl hr
  | atom | equivalence | ruleName | application | binding | stray =>
    unfold evaluate
    split
    · next column hknown => exact .known hknown
    · next hknown => exact .improper hknown rfl

/-- What evaluating `n` keeps: the invariant and all known columns, and the
column that it answers with is known afterwards. -/
structure Keeps (atoms : List Int) (before : Columns) (n : Node) (answer : Except Fault Column)
    (after : Columns) : Prop where
  tabulates : Tabulates atoms after
  extending : Extends before after
  known : ∀ {column}, answer = .ok column → after.get? n = some column

theorem Keeps.fault {atoms : List Int} {before middle after : Columns} {x n : Node} {fault : Fault}
    (hext : Extends before middle) (h : Keeps atoms middle x (.error fault) after) :
    Keeps atoms before n (.error fault) after :=
  ⟨h.tabulates, hext.trans h.extending, nofun⟩

/-- Once the operands of `n` are evaluated, the column of `n` joins theirs. -/
theorem Keeps.insert {atoms : List Int} {before after : Columns} {n : Node} {column : Column}
    (h : Tabulates atoms after) (hext : Extends before after)
    (hcolumn : column = truthColumn atoms n) (hf : n.IsFormula) (ho : ∀ i ∈ n.atoms, i ∈ atoms)
    (hp : ∀ p ∈ n.parts, p = n ∨ (after.get? p).isSome) :
    Keeps atoms before n (.ok column) (after.insert n column) := by
  subst hcolumn
  refine ⟨h.insert hf ho hp, hext.trans (h.extends_insert n), ?_⟩
  rintro _ ⟨⟩
  exact OrderedMap.get?_insert_self ..

theorem Keeps.insert_unary {atoms : List Int} {before after : Columns} {n x : Node}
    {values column : Column} (hk : Keeps atoms before x (.ok values) after)
    (hcolumn : values = truthColumn atoms x → column = truthColumn atoms n)
    (hf : x.IsFormula → n.IsFormula) (hatoms : n.atoms = x.atoms)
    (hparts : n.parts = n :: x.parts) :
    Keeps atoms before n (.ok column) (after.insert n column) := by
  have hx : after.get? x = some values := hk.known rfl
  refine .insert hk.tabulates hk.extending (hcolumn (hk.tabulates.values hx))
    (hf (hk.tabulates.formula hx)) (fun i hi => hk.tabulates.among hx i (hatoms ▸ hi)) fun p hp => ?_
  rw [hparts] at hp
  rcases List.mem_cons.1 hp with rfl | hp
  · exact .inl rfl
  · exact .inr (hk.tabulates.closed hx p hp)

/-- **Evaluating any tree keeps the invariant**, also where it ends with a fault
after some of its parts have been evaluated. -/
theorem Evaluates.keeps {atoms : List Int} {columns after : Columns} {n : Node}
    {answer : Except Fault Column} (hev : Evaluates columns n answer after)
    (h : Tabulates atoms columns) : Keeps atoms columns n answer after := by
  induction hev with
  | known hc =>
    refine ⟨h, .refl _, ?_⟩
    rintro _ ⟨⟩
    exact hc
  | @neg columns after x values _ ih =>
    refine (ih h).insert_unary (fun hvalues => ?_) .neg rfl rfl
    rw [truthColumn_neg, hvalues]
  | @group columns after x values _ ih =>
    refine (ih h).insert_unary (fun hvalues => ?_) .group rfl rfl
    rw [truthColumn_group, hvalues]
  | @binary columns middle after l r op left right _ _ ihl ihr =>
    have hkl := ihl h
    have hkr := ihr hkl.tabulates
    -- what is known of the left side stays known while the right side is evaluated
    have hl : after.get? l = some left := hkr.extending _ _ (hkl.known rfl)
    have hr : after.get? r = some right := hkr.known rfl
    have hcolumn : List.zipWith op.onBytes left right = truthColumn atoms (.binary l op r) := by
      rw [truthColumn_binary, ← hkr.tabulates.values hl, ← hkr.tabulates.values hr]
    refine .insert hkr.tabulates (hkl.extending.trans hkr.extending) hcolumn
      (.binary op (hkr.tabulates.formula hl) (hkr.tabulates.formula hr)) (fun i hi => ?_)
      fun p hp => ?_
    · rcases List.mem_append.1 hi with hi | hi
      · exact hkr.tabulates.among hl i hi
      · exact hkr.tabulates.among hr i hi
    · rcases List.mem_cons.1 hp with rfl | hp
      · exact .inl rfl
      · rcases List.mem_append.1 hp with hp | hp
        · exact .inr (hkr.tabulates.closed hl p hp)
        · exact .inr (hkr.tabulates.closed hr p hp)
  | negFault _ ih | groupFault _ ih | leftFault _ ih => exact .fault (.refl _) (ih h)
  | rightFault _ _ ihl ihr =>
    have hkl := ihl h
    exact .fault hkl.extending (ihr hkl.tabulates)
  | improper => exact ⟨h, .refl _, nofun⟩

theorem Evaluates.formula {atoms : List Int} {columns after : Columns} {n : Node}
    {answer : Except Fault Column} (hev : Evaluates columns n answer after)
    (h : Tabulates atoms columns) (hf : n.IsFormula) (ho : ∀ i ∈ n.atoms, i ∈ atoms) :
    ∃ column, answer = .ok column := by
  induction hev with
  | known | neg | group | binary => exact ⟨_, rfl⟩
  | negFault _ ih =>
    cases hf with
    | neg hx => exact ih h hx ho
  | groupFault _ ih =>
    cases hf with
    | group hx => exact ih h hx ho
  | leftFault _ ih =>
    cases hf with
    | binary _ hl _ => exact ih h hl fun i hi => ho i (List.mem_append_left _ hi)
  | rightFault hl _ _ ihr =>
    cases hf with
    | binary _ _ hr => exact ihr (hl.keeps h).tabulates hr fun i hi => ho i (List.mem_append_right _ hi)
  | improper hnone hsimple =>
    cases hf with
    | atom i =>
      have hbase := h.base i (ho i (List.mem_singleton_self i))
      rw [hnone] at hbase
      cases hbase
    | neg | group | binary => cases hsimple

/-! ## The table of a formula, and what may be asked of it later -/

theorem keys_atomColumns (atoms : List Int) :
    (atoms.zipIdx.map fun (i, j) => (Node.atom i, atomColumn j (Nat.pow 2 atoms.length))).map (·.1) =
      atoms.map Node.atom := by
  rw [List.map_map]
  calc atoms.zipIdx.map _ = (atoms.zipIdx.map (·.1)).map Node.atom := by rw [List.map_map]; rfl
    _ = atoms.map Node.atom := by rw [List.zipIdx_map_fst]

theorem entries_atomColumns {atoms : List Int} (h : atoms.Nodup) :
    (atomColumns atoms).entries =
      atoms.zipIdx.map fun (i, j) => (Node.atom i, atomColumn j (Nat.pow 2 atoms.length)) := by
  have hnodup : (atoms.map Node.atom).Nodup :=
    List.pairwise_map.2 (h.imp fun hab e => hab (by injection e))
  exact OrderedMap.entries_ofList ((keys_atomColumns atoms).symm ▸ hnodup)

theorem keys_of_atoms {atoms : List Int} (h : atoms.Nodup) :
    (atomColumns atoms).keys = atoms.map .atom := by
  rw [OrderedMap.keys, entries_atomColumns h, keys_atomColumns]

theorem tabulates_atomColumns {atoms : List Int} (h : atoms.Nodup) :
    Tabulates atoms (atomColumns atoms) := by
  have known : ∀ {n column}, (atomColumns atoms).get? n = some column →
      ∃ a ∈ atoms, n = .atom a ∧ column = truthColumn atoms (.atom a) := by
    intro n column hc
    have hmem := OrderedMap.mem_entries_of_get? hc
    rw [entries_atomColumns h, List.mem_map] at hmem
    obtain ⟨⟨a, j⟩, haj, he⟩ := hmem
    cases he
    have ha := List.mk_mem_zipIdx_iff_getElem?.1 haj
    exact ⟨a, List.mem_of_getElem? ha, rfl, atomColumn_eq h ha⟩
  constructor
  case formula =>
    intro n column hc
    obtain ⟨a, -, rfl, -⟩ := known hc
    exact .atom a
  case among =>
    intro n column hc i hi
    obtain ⟨a, ha, rfl, -⟩ := known hc
    rwa [List.mem_singleton.1 hi]
  case values =>
    intro n column hc
    obtain ⟨a, -, rfl, hv⟩ := known hc
    exact hv
  case closed =>
    intro n column hc p hp
    obtain ⟨a, -, rfl, -⟩ := known hc
    rw [List.mem_singleton.1 hp, hc]
    rfl
  case base =>
    intro i hi
    rw [← OrderedMap.contains, OrderedMap.contains_iff_mem_keys, keys_of_atoms h]
    exact List.mem_map_of_mem hi

/-- The table after further expressions have been evaluated, or have failed to be. -/
def queried (t : TruthTable) (queries : List Node) : TruthTable :=
  queries.foldl (fun t n => (t.eval n).2) t

theorem queried_append (t : TruthTable) (queries more : List Node) :
    t.queried (queries ++ more) = (t.queried queries).queried more :=
  List.foldl_append

/-- Queries keep the formula, its atoms, the invariant and all known columns. -/
theorem queried_keeps {t : TruthTable} (h : Tabulates t.atoms t.columns) (queries : List Node) :
    (t.queried queries).formula = t.formula ∧ (t.queried queries).atoms = t.atoms ∧
      Tabulates t.atoms (t.queried queries).columns ∧
      Extends t.columns (t.queried queries).columns := by
  induction queries generalizing t with
  | nil => exact ⟨rfl, rfl, h, .refl _⟩
  | cons n rest ih =>
    have hk := (evaluates t.columns n).keeps h
    obtain ⟨hformula, hatoms, htab, hext⟩ := ih (t := (t.eval n).2) hk.tabulates
    exact ⟨hformula, hatoms, htab, hk.extending.trans hext⟩

theorem result_eq {t : TruthTable} {column : Column}
    (h : t.columns.get? t.formula = some column) : t.result = .ok column := by
  rw [result, h]

/-- The table of a formula: its atoms, ascending, its own column known, and the invariant. -/
theorem ofFormula_tabulates {e : Node} (he : e.IsFormula) (symbols : Symbols) :
    ∃ t, ofFormula e symbols = .ok t ∧ t.formula = e ∧ t.atoms = insertAll [] e.atoms ∧
      Tabulates t.atoms t.columns ∧
      ∃ column, t.columns.get? e = some column ∧ t.result = .ok column := by
  have hasc : (insertAll [] e.atoms).Pairwise (· < ·) := insertAll_ascending .nil
  have hbase := tabulates_atomColumns (hasc.imp fun h => Int.ne_of_lt h)
  have hmem : ∀ i ∈ e.atoms, i ∈ insertAll [] e.atoms := fun i hi => mem_insertAll.2 (.inr hi)
  have hrun := evaluates (atomColumns (insertAll [] e.atoms)) e
  rcases hev : evaluate (atomColumns (insertAll [] e.atoms)) e with ⟨answer, columns⟩
  rw [hev] at hrun
  have hk := hrun.keeps hbase
  obtain ⟨column, hanswer⟩ := hrun.formula hbase he hmem
  cases hanswer
  have hknown := hk.known rfl
  refine ⟨⟨e, symbols, insertAll [] e.atoms, columns⟩, ?_, rfl, rfl, hk.tabulates, column, hknown,
    result_eq hknown⟩
  simp only [ofFormula, collectAtoms_formula he, bind, Except.bind, hev, pure, Except.pure]

/-- **Truth tables are right, and stay right.** Every formula has a table; it
has a row for each assignment to the formula's distinct atoms and columns for
all sub-expressions. Whatever trees are evaluated in it later, with success or
not, each column that it holds then is the column of a formula over these atoms,
and has in row `i` the truth value of that formula where atom number `j` has bit
`j` of `i`; no column known at any time changes later, and atoms, rows and
result stay. -/
theorem columns_are_truth_values {e : Node} (he : e.IsFormula) (symbols : Symbols) :
    ∃ t, ofFormula e symbols = .ok t ∧
      t.atoms.Pairwise (· < ·) ∧ (∀ i, i ∈ t.atoms ↔ i ∈ e.atoms) ∧
      t.rows = Nat.pow 2 t.atoms.length ∧
      (∃ column, t.columns.get? e = some column ∧ t.result = .ok column) ∧
      (∀ part ∈ e.parts, (t.columns.get? part).isSome) ∧
      ∀ queries,
        (∀ n column, (t.queried queries).columns.get? n = some column →
          n.IsFormula ∧ (∀ i ∈ n.atoms, i ∈ t.atoms) ∧ column.length = t.rows ∧
          ∀ i < t.rows, column[i]? = some (n.holds (assignment t.atoms i)).toUInt8) ∧
        (∀ more n column, (t.queried queries).columns.get? n = some column →
          (t.queried (queries ++ more)).columns.get? n = some column) ∧
        (t.queried queries).atoms = t.atoms ∧ (t.queried queries).rows = t.rows ∧
        (t.queried queries).result = t.result := by
  obtain ⟨t, ht, hformula, hatoms, htab, column, hknown, hresult⟩ := ofFormula_tabulates he symbols
  refine ⟨t, ht, ?_, ?_, rfl, ⟨column, hknown, hresult⟩, htab.closed hknown, fun queries => ?_⟩
  · rw [hatoms]
    exact insertAll_ascending .nil
  · intro i
    rw [hatoms, mem_insertAll]
    simp
  obtain ⟨hf, ha, htab', hext⟩ := queried_keeps htab queries
  refine ⟨fun n column hc => ?_, fun more n column hc => ?_, ha, ?_, ?_⟩
  · have hv := htab'.values hc
    refine ⟨htab'.formula hc, htab'.among hc, ?_, fun i hi => ?_⟩
    · rw [hv, length_truthColumn]
      rfl
    · rw [hv, getElem?_truthColumn n hi]
  · rw [queried_append]
    exact (queried_keeps (ha.symm ▸ htab') more).2.2.2 n column hc
  · rw [rows, rows, ha]
  · have hlater : (t.queried queries).columns.get? (t.queried queries).formula = some column := by
      rw [hf, hformula, hext e _ hknown]
    rw [hresult, result_eq hlater]

/-- The conditional of an atom with one of lower index, after any queries. -/
theorem result_of_conditional :
    (Node.binary (.atom 4) .cond (.atom 1)).IsFormula ∧
      ∃ t, ofFormula (.binary (.atom 4) .cond (.atom 1)) .empty = .ok t ∧
        ∀ queries, (t.queried queries).result = .ok [1, 1, 0, 1] := by
  have he : (Node.binary (.atom 4) .cond (.atom 1)).IsFormula := by decide
  obtain ⟨t, ht, -, -, -, ⟨column, -, hcolumn⟩, -, hlater⟩ := columns_are_truth_values he .empty
  have hresult : (ofFormula (.binary (.atom 4) .cond (.atom 1)) .empty).toOption.bind
      (·.result.toOption) = some [1, 1, 0, 1] := by decide +kernel
  rw [ht] at hresult
  change t.result.toOption = some [1, 1, 0, 1] at hresult
  rw [hcolumn] at hresult
  refine ⟨he, t, ht, fun queries => ?_⟩
  obtain ⟨-, -, -, -, hkept⟩ := hlater queries
  rw [hkept, hcolumn]
  exact congrArg Except.ok (Option.some.inj hresult)

end TruthTable

end Propositional
