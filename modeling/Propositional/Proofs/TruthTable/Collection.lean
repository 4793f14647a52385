/-
Collecting atoms from a stack, and by recursion. The loop takes one tree from the stack a turn
(`Pending.turn`). A turn leaves fewer nodes on the stack and does not change what is going to be
collected (`turn_keeps`), so a run has no more turns than there are nodes (`Turns.keeps`) and
comes to an end (`exists_last_turn`). What a single tree comes to is what recursion makes of it
(`traverse_eq`): the sides of a connective are put on the stack in such an order that the left
one is used up, or has been refused, before the right one is looked at.
-/
import Propositional.Proofs.TruthTable.Atoms

namespace Propositional

namespace Node

/-- The atoms of a tree from left to right, by recursion, or the node at which the recursion is
given up: the first one that no formula is made of. -/
def traverse : Node → Except Node (List Int)
  | atom i => .ok [i]
  | neg x | group x => x.traverse
  | binary l _ r => do
    let left ← l.traverse
    let right ← r.traverse
    return left ++ right
  | n => .error n

theorem traverse_eq (n : Node) :
    n.traverse =
      match n.parts.find? (!·.isProper) with
      | some p => .error p
      | none => .ok n.atoms := by
  induction n with
  | atom i => rfl
  | neg x ih | group x ih =>
    rw [traverse, ih]
    rfl
  | binary l op r ihl ihr =>
    rw [traverse, ihl, ihr, parts, List.find?_cons_of_neg (by simp [isProper]), List.find?_append]
    cases l.parts.find? (!·.isProper) with
    | some p => rfl
    | none => cases r.parts.find? (!·.isProper) <;> rfl
  | equivalence | ruleName | application | binding | stray => simp [traverse, parts, isProper]

end Node

namespace TruthTable

/-- What the loop holds between two turns: the atoms found, and the trees still to be looked
at, the next one on top. -/
structure Pending where
  found : List Int
  stack : List Node

namespace Pending

/-- The loop at its beginning. -/
def start (n : Node) : Pending := ⟨[], [n]⟩

/-- One turn of the loop. There is none on an empty stack, nor where the topmost tree is no
formula. -/
def turn : Pending → Option Pending
  | ⟨found, .atom i :: stack⟩ => some ⟨insertAscending i found, stack⟩
  | ⟨found, .neg x :: stack⟩ | ⟨found, .group x :: stack⟩ => some ⟨found, x :: stack⟩
  | ⟨found, .binary l _ r :: stack⟩ => some ⟨found, l :: r :: stack⟩
  | _ => none

/-- What the loop answers if there is no further turn. -/
def answer : Pending → Except Fault (List Int)
  | ⟨found, []⟩ => .ok found
  | ⟨_, n :: _⟩ => .error (.notEvaluable n)

/-- What is collected from here on. -/
def collected (s : Pending) : Except Fault (List Int) := collectFrom s.found s.stack

variable {s s' : Pending}

theorem turn_keeps (h : s.turn = some s') :
    s'.collected = s.collected ∧ stackCount s'.stack + 1 = stackCount s.stack := by
  obtain ⟨found, stack⟩ := s
  cases stack with
  | nil => cases h
  | cons n stack =>
    cases n with
    | atom i =>
      cases h
      exact ⟨by rw [collected, collected, collectFrom], by simp only [stackCount, nodeCount]; omega⟩
    | neg x | group x =>
      cases h
      exact ⟨by rw [collected, collected, collectFrom], by simp only [stackCount, nodeCount]; omega⟩
    | binary l op r =>
      cases h
      exact ⟨by rw [collected, collected, collectFrom], by simp only [stackCount, nodeCount]; omega⟩
    | equivalence | ruleName | application | binding | stray => cases h

theorem collected_of_last (h : s.turn = none) : s.collected = s.answer := by
  obtain ⟨found, stack⟩ := s
  cases stack with
  | nil => rw [collected, collectFrom, answer]
  | cons n stack =>
    cases n with
    | atom | neg | group | binary => cases h
    | equivalence | ruleName | application | binding | stray => simp [collected, collectFrom, answer]

end Pending

/-- A run of the loop of so many turns. -/
inductive Turns : Pending → Nat → Pending → Prop
  | nil (s : Pending) : Turns s 0 s
  | cons {s s' s'' : Pending} {k : Nat} :
      s.turn = some s' → Turns s' k s'' → Turns s (k + 1) s''

theorem Turns.keeps {s s' : Pending} {k : Nat} (h : Turns s k s') :
    s'.collected = s.collected ∧ k + stackCount s'.stack = stackCount s.stack := by
  induction h with
  | nil => exact ⟨rfl, Nat.zero_add _⟩
  | cons hturn _ ih =>
    obtain ⟨hsame, hcount⟩ := Pending.turn_keeps hturn
    exact ⟨ih.1.trans hsame, by omega⟩

/-- The loop comes to an end wherever it begins. By induction on the nodes on the stack. -/
theorem exists_last_turn (s : Pending) : ∃ k last, Turns s k last ∧ last.turn = none := by
  cases h : s.turn with
  | none => exact ⟨0, s, .nil s, h⟩
  | some s' =>
    obtain ⟨k, last, hrun, hlast⟩ := exists_last_turn s'
    exact ⟨k + 1, last, .cons h hrun, hlast⟩
  termination_by stackCount s.stack
  decreasing_by
    have hcount := (Pending.turn_keeps h).2
    omega

theorem collectAtoms_of_traverse_error {n p : Node} (h : n.traverse = .error p) :
    collectAtoms n = .error (.notEvaluable p) := by
  rw [Node.traverse_eq] at h
  rw [collectAtoms_eq]
  cases hfind : n.parts.find? (!·.isProper) with
  | none => simp [hfind] at h
  | some q =>
    rw [hfind] at h
    cases h
    rfl

theorem collectAtoms_of_traverse_ok {n : Node} {found : List Int} (h : n.traverse = .ok found) :
    ∃ atoms, collectAtoms n = .ok atoms ∧ atoms.Pairwise (· < ·) ∧
      ∀ i, i ∈ atoms ↔ i ∈ found := by
  rw [Node.traverse_eq] at h
  cases hfind : n.parts.find? (!·.isProper) with
  | some q => simp [hfind] at h
  | none =>
    rw [hfind] at h
    cases h
    refine ⟨insertAll [] n.atoms, ?_, insertAll_ascending .nil, fun i => by simp [mem_insertAll]⟩
    rw [collectAtoms_eq, hfind]

theorem collectAtoms_of_first {n p : Node} {before : List Node}
    (hbegins : before ++ [p] <+: n.parts) (hbefore : ∀ q ∈ before, q.isProper = true)
    (hp : p.isProper = false) : collectAtoms n = .error (.notEvaluable p) := by
  obtain ⟨after, hparts⟩ := hbegins
  have hnone : before.find? (!·.isProper) = none :=
    List.find?_eq_none.2 fun q hq => by simp [hbefore q hq]
  rw [collectAtoms_eq, ← hparts, List.append_assoc, List.find?_append, hnone, Option.none_or,
    List.singleton_append, List.find?_cons_of_pos (by simp [hp])]

/-- **The stack collects what recursion finds.** On no tree has the loop a run of more turns than
the tree has nodes, and it comes to an end, where it has its answer. That is the answer of
recursion: where recursion goes through, the atoms that it finds, each once and in ascending
order, and where it is given up, a fault at the node where it is. So a tree whose parts are all
such as formulas are made of is answered with the indices of its atoms. Of any other tree the
fault names the kind of the first part, from left to right and a node before its operands, that
is not so; and so does that of every tree that begins with the same parts, whatever comes to the
right of them. -/
theorem stack_collects_as_recursion (e : Node) :
    (∀ k s, Turns (.start e) k s → k ≤ nodeCount e) ∧
    (∃ k last, Turns (.start e) k last ∧ last.turn = none ∧ collectAtoms e = last.answer) ∧
    (∀ found, e.traverse = .ok found →
      ∃ atoms, collectAtoms e = .ok atoms ∧ atoms.Pairwise (· < ·) ∧ ∀ i, i ∈ atoms ↔ i ∈ found) ∧
    (∀ p, e.traverse = .error p → collectAtoms e = .error (.notEvaluable p)) ∧
    ((∀ p ∈ e.parts, p.isProper = true) →
      ∃ atoms, collectAtoms e = .ok atoms ∧ atoms.Pairwise (· < ·) ∧
        ∀ i, i ∈ atoms ↔ .atom i ∈ e.parts) ∧
    ((∃ p ∈ e.parts, p.isProper = false) →
      ∃ before p after, e.parts = before ++ p :: after ∧ (∀ q ∈ before, q.isProper = true) ∧
        p.isProper = false ∧ (Fault.notEvaluable p).message =
          "Cannot evaluate " ++ p.kindName ++ "; only pure formulas have truth tables" ∧
        ∀ e', before ++ [p] <+: e'.parts → collectAtoms e' = .error (.notEvaluable p)) := by
  refine ⟨fun k s hrun => ?_, ?_, fun _ => collectAtoms_of_traverse_ok,
    fun _ => collectAtoms_of_traverse_error, fun hproper => ?_, ?_⟩
  · have hcount := hrun.keeps.2
    simp only [Pending.start, stackCount] at hcount
    omega
  · obtain ⟨k, last, hrun, hlast⟩ := exists_last_turn (.start e)
    exact ⟨k, last, hrun, hlast, by rw [← Pending.collected_of_last hlast, hrun.keeps.1]; rfl⟩
  · refine ⟨_, collectAtoms_formula (Node.isFormula_iff_parts.2 hproper),
      insertAll_ascending .nil, fun i => ?_⟩
    rw [mem_insertAll]
    exact ⟨fun h => Node.atom_mem_parts (h.resolve_left nofun), fun h => .inr (Node.mem_atoms_of_part h)⟩
  · rintro ⟨q, hq, himproper⟩
    have hsome : (e.parts.find? (!·.isProper)).isSome :=
      List.find?_isSome.2 ⟨q, hq, by simp [himproper]⟩
    obtain ⟨p, hfind⟩ := Option.isSome_iff_exists.1 hsome
    obtain ⟨hp, before, after, hparts, hbefore⟩ := List.find?_eq_some_iff_append.1 hfind
    have hproper : ∀ q ∈ before, q.isProper = true := by simpa using hbefore
    have himproper : p.isProper = false := by simpa using hp
    exact ⟨before, p, after, hparts, hproper, himproper, rfl,
      fun e' hbegins => collectAtoms_of_first hbegins hproper himproper⟩

/-- A rule name under a negation on the left is reported, and not the binding on the right. -/
theorem stack_collects_as_recursion_left :
    let e := Node.binary (.binary (.atom 3) .conj (.neg (.ruleName 1))) .disj
      (.binding (.atom 0) (.equivalence (.atom 0) (.atom 0)))
    e.traverse = .error (.ruleName 1) ∧ collectAtoms e = .error (.notEvaluable (.ruleName 1)) := by
  intro e
  obtain ⟨-, -, -, herror, -, -⟩ := stack_collects_as_recursion e
  exact ⟨rfl, herror _ rfl⟩

end TruthTable

end Propositional
