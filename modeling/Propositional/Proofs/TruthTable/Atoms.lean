/-
The parts of a tree, and the atoms among them as the truth table of a formula lists them: the
stack of pending trees empties, and what was found is every atom once, in ascending order
(`collectAtoms_formula`). Other trees than formulas have a part that no formula is made of, and
the stack stops at the first one (`collectFrom_eq`).
-/
import Propositional.TruthTable

namespace Propositional

namespace Node

/-- The sub-expressions of a formula: itself and those of its operands. -/
def parts : Node → List Node
  | neg x => neg x :: x.parts
  | group x => group x :: x.parts
  | binary l op r => binary l op r :: (l.parts ++ r.parts)
  | n => [n]

theorem self_mem_parts (n : Node) : n ∈ n.parts := by
  cases n <;> exact List.mem_cons_self

theorem parts_trans {p q n : Node} (hp : p ∈ q.parts) (hq : q ∈ n.parts) : p ∈ n.parts := by
  induction n with
  | neg x ih | group x ih =>
    rcases List.mem_cons.1 hq with rfl | hq
    · exact hp
    · exact List.mem_cons_of_mem _ (ih hq)
  | binary l op r ihl ihr =>
    rcases List.mem_cons.1 hq with rfl | hq
    · exact hp
    · refine List.mem_cons_of_mem _ (List.mem_append.2 ?_)
      exact (List.mem_append.1 hq).imp ihl ihr
  | atom | equivalence | ruleName | application | binding | stray =>
    rwa [List.mem_singleton.1 hq] at hp

theorem atom_mem_parts {n : Node} {i : Int} (h : i ∈ n.atoms) : .atom i ∈ n.parts := by
  induction n with
  | atom j =>
    obtain rfl := List.mem_singleton.1 h
    exact self_mem_parts _
  | neg x ih | group x ih => exact List.mem_cons_of_mem _ (ih h)
  | binary l op r ihl ihr =>
    refine List.mem_cons_of_mem _ (List.mem_append.2 ?_)
    exact (List.mem_append.1 h).imp ihl ihr
  | equivalence | ruleName | application | binding | stray => cases h

/-- The nodes that formulas are made of. -/
def isProper : Node → Bool
  | atom _ | neg _ | group _ | binary .. => true
  | _ => false

/-- A node is a formula if all its parts are nodes that formulas are made of. -/
theorem isFormula_iff_parts {n : Node} : n.IsFormula ↔ ∀ p ∈ n.parts, p.isProper = true := by
  constructor
  · intro h
    induction h with
    | atom i =>
      intro p hp
      rw [List.mem_singleton.1 hp]
      rfl
    | neg _ ih | group _ ih =>
      intro p hp
      rcases List.mem_cons.1 hp with rfl | hp
      · rfl
      · exact ih p hp
    | binary op _ _ ihl ihr =>
      intro p hp
      rcases List.mem_cons.1 hp with rfl | hp
      · rfl
      · exact (List.mem_append.1 hp).elim (ihl p) (ihr p)
  · intro h
    induction n with
    | atom i => exact .atom i
    | neg x ih => exact .neg (ih fun p hp => h p (List.mem_cons_of_mem _ hp))
    | group x ih => exact .group (ih fun p hp => h p (List.mem_cons_of_mem _ hp))
    | binary l op r ihl ihr =>
      exact .binary op
        (ihl fun p hp => h p (List.mem_cons_of_mem _ (List.mem_append_left _ hp)))
        (ihr fun p hp => h p (List.mem_cons_of_mem _ (List.mem_append_right _ hp)))
    | equivalence | ruleName | application | binding | stray => cases h _ List.mem_cons_self

theorem mem_atoms_of_part {n : Node} {i : Int} (h : .atom i ∈ n.parts) : i ∈ n.atoms := by
  induction n with
  | atom j =>
    cases List.mem_singleton.1 h
    exact List.mem_singleton_self i
  | neg x ih | group x ih => exact ih (by simpa [parts] using h)
  | binary l op r ihl ihr =>
    have hsides : .atom i ∈ l.parts ∨ .atom i ∈ r.parts := by simpa [parts] using h
    exact List.mem_append.2 (hsides.imp ihl ihr)
  | equivalence | ruleName | application | binding | stray => cases List.mem_singleton.1 h

end Node

namespace TruthTable

/-! ## Atoms found, in ascending order -/

theorem mem_insertAscending {i j : Int} {found : List Int} :
    j ∈ insertAscending i found ↔ j = i ∨ j ∈ found := by
  induction found with
  | nil => simp [insertAscending]
  | cons k rest ih =>
    unfold insertAscending
    split
    · exact List.mem_cons
    · split
      · rename_i hik
        simp [hik]
      · simp only [List.mem_cons, ih]
        exact or_left_comm

theorem insertAscending_ascending {i : Int} {found : List Int} (h : found.Pairwise (· < ·)) :
    (insertAscending i found).Pairwise (· < ·) := by
  induction found with
  | nil => simp [insertAscending]
  | cons k rest ih =>
    obtain ⟨hk, hrest⟩ := List.pairwise_cons.1 h
    unfold insertAscending
    split
    · rename_i hik
      refine List.pairwise_cons.2 ⟨fun a ha => ?_, h⟩
      rcases List.mem_cons.1 ha with rfl | ha
      · exact hik
      · exact Int.lt_trans hik (hk a ha)
    · split
      · exact h
      · refine List.pairwise_cons.2 ⟨fun a ha => ?_, ih hrest⟩
        rcases mem_insertAscending.1 ha with rfl | ha
        · omega
        · exact hk a ha

/-- The numbers of a list put into an ascending one, from left to right. -/
def insertAll (found numbers : List Int) : List Int :=
  numbers.foldl (fun found i => insertAscending i found) found

theorem insertAll_append (found xs ys : List Int) :
    insertAll found (xs ++ ys) = insertAll (insertAll found xs) ys :=
  List.foldl_append

theorem mem_insertAll {j : Int} {found numbers : List Int} :
    j ∈ insertAll found numbers ↔ j ∈ found ∨ j ∈ numbers := by
  induction numbers generalizing found with
  | nil => simp [insertAll]
  | cons i rest ih =>
    have h : insertAll found (i :: rest) = insertAll (insertAscending i found) rest := rfl
    rw [h, ih, mem_insertAscending, List.mem_cons, or_comm (a := j = i), or_assoc]

theorem insertAll_ascending {found numbers : List Int} (h : found.Pairwise (· < ·)) :
    (insertAll found numbers).Pairwise (· < ·) := by
  induction numbers generalizing found with
  | nil => exact h
  | cons i rest ih => exact ih (insertAscending_ascending h)

/-! ## The stack of pending trees -/

/-- A tree on top of the stack is used up, and its atoms are found, unless it has a part that
no formula is made of. The first such part, the whole before its operands and the left one
before the right one, is the fault, whatever lies below it on the stack. -/
theorem collectFrom_eq (n : Node) (found : List Int) (stack : List Node) :
    collectFrom found (n :: stack) =
      match n.parts.find? (!·.isProper) with
      | some p => .error (.notEvaluable p)
      | none => collectFrom (insertAll found n.atoms) stack := by
  induction n generalizing found stack with
  | atom i =>
    rw [collectFrom]
    rfl
  | neg x ih | group x ih =>
    rw [collectFrom, ih]
    rfl
  | binary l op r ihl ihr =>
    have hparts : (Node.binary l op r).parts.find? (!·.isProper) =
        (l.parts.find? (!·.isProper)).or (r.parts.find? (!·.isProper)) := by
      rw [Node.parts, List.find?_cons_of_neg (by simp [Node.isProper]), List.find?_append]
    rw [collectFrom, ihl, hparts]
    cases l.parts.find? (!·.isProper) with
    | some p => rfl
    | none =>
      rw [Option.none_or]
      dsimp only
      rw [ihr, Node.atoms, insertAll_append]
  | equivalence | ruleName | application | binding | stray =>
    simp [collectFrom, Node.parts, Node.isProper]

theorem collectAtoms_eq (n : Node) :
    collectAtoms n =
      match n.parts.find? (!·.isProper) with
      | some p => .error (.notEvaluable p)
      | none => .ok (insertAll [] n.atoms) := by
  rw [collectAtoms, collectFrom_eq, collectFrom]

theorem collectAtoms_formula {n : Node} (h : n.IsFormula) :
    collectAtoms n = .ok (insertAll [] n.atoms) := by
  have hnone : n.parts.find? (!·.isProper) = none := by simpa using Node.isFormula_iff_parts.1 h
  rw [collectAtoms_eq, hnone]

/-- Only of formulas are atoms collected. -/
theorem isFormula_of_collectAtoms {n : Node} {atoms : List Int} (h : collectAtoms n = .ok atoms) :
    n.IsFormula ∧ atoms = insertAll [] n.atoms := by
  rw [collectAtoms_eq] at h
  cases hfind : n.parts.find? (!·.isProper) with
  | some p =>
    rw [hfind] at h
    cases h
  | none =>
    rw [hfind] at h
    cases h
    exact ⟨Node.isFormula_iff_parts.2 (by simpa using hfind), rfl⟩

end TruthTable

end Propositional
