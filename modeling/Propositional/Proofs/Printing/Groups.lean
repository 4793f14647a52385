/-
Where a text has parentheses that the tree it is the text of has not.
`withGroups` puts a group into the tree at each of these places, going by how
connectives bind; it has the meaning of the tree, and the same text
(`text_withGroups`). Erasing all groups undoes it.
-/
import Propositional.Proofs.Printing.Text
import Propositional.Semantics

namespace Propositional

/-- The first connective binds tighter than the second. -/
def Connective.bindsTighter : Connective → Connective → Bool
  | conj, disj | conj, cond | conj, bicond => true
  | disj, cond | disj, bicond => true
  | cond, bicond => true
  | _, _ => false

namespace Node

def groupIf (needed : Bool) (n : Node) : Node := if needed then group n else n

/-- The left side of a connective that binds tighter than its own. -/
def isGroupedLeft (op : Connective) : Node → Bool
  | binary _ inner _ => op.bindsTighter inner
  | _ => false

/-- The right side of a connective that binds as its own or tighter. -/
def isGroupedRight (op : Connective) : Node → Bool
  | binary _ inner _ => op = inner || op.bindsTighter inner
  | _ => false

/-- The node with a group around each binary node that is negated, or the left side of
a tighter connective, or the right side of one that is the same or tighter. -/
def withGroups : Node → Node
  | neg x => neg (groupIf x.isBinary x.withGroups)
  | group x => group x.withGroups
  | binary l op r =>
    binary (groupIf (l.isGroupedLeft op) l.withGroups) op
      (groupIf (r.isGroupedRight op) r.withGroups)
  | n => n

/-- The node without its groups. -/
def eraseGroups : Node → Node
  | neg x => neg x.eraseGroups
  | group x => x.eraseGroups
  | binary l op r => binary l.eraseGroups op r.eraseGroups
  | n => n

/-! ## What groups do not change -/

@[simp] theorem eraseGroups_groupIf (needed : Bool) (n : Node) :
    (groupIf needed n).eraseGroups = n.eraseGroups := by
  cases needed <;> rfl

@[simp] theorem holds_groupIf (v : Int → Bool) (needed : Bool) (n : Node) :
    (groupIf needed n).holds v = n.holds v := by
  cases needed <;> rfl

@[simp] theorem atoms_groupIf (needed : Bool) (n : Node) : (groupIf needed n).atoms = n.atoms := by
  cases needed <;> rfl

theorem IsFormula.groupIf {n : Node} (h : n.IsFormula) (needed : Bool) :
    (groupIf needed n).IsFormula := by
  cases needed with
  | false => exact h
  | true => exact .group h

theorem eraseGroups_withGroups (n : Node) : n.withGroups.eraseGroups = n.eraseGroups := by
  induction n with
  | neg x ih => simp only [withGroups, eraseGroups, eraseGroups_groupIf, ih]
  | group x ih => simp only [withGroups, eraseGroups, ih]
  | binary l op r ihl ihr => simp only [withGroups, eraseGroups, eraseGroups_groupIf, ihl, ihr]
  | atom | equivalence | ruleName | application | binding | stray => rfl

theorem holds_withGroups (v : Int → Bool) (n : Node) : n.withGroups.holds v = n.holds v := by
  induction n with
  | neg x ih => simp only [withGroups, holds_neg, holds_groupIf, ih]
  | group x ih => simp only [withGroups, holds_group, ih]
  | binary l op r ihl ihr => simp only [withGroups, holds_binary, holds_groupIf, ihl, ihr]
  | atom | equivalence | ruleName | application | binding | stray => rfl

theorem atoms_withGroups (n : Node) : n.withGroups.atoms = n.atoms := by
  induction n with
  | neg x ih => simp only [withGroups, atoms, atoms_groupIf, ih]
  | group x ih => simp only [withGroups, atoms, ih]
  | binary l op r ihl ihr => simp only [withGroups, atoms, atoms_groupIf, ihl, ihr]
  | atom | equivalence | ruleName | application | binding | stray => rfl

theorem IsFormula.withGroups {n : Node} (h : n.IsFormula) : n.withGroups.IsFormula := by
  induction h with
  | atom i => exact .atom i
  | neg _ ih => exact .neg (ih.groupIf _)
  | group _ ih => exact .group ih
  | binary op _ _ ihl ihr => exact .binary op (ihl.groupIf _) (ihr.groupIf _)

/-! ## Groups and the printer's parentheses -/

theorem isGroupedLeft_eq (op : Connective) (n : Node) : n.isGroupedLeft op = n.needsParensLeft op := by
  cases n with
  | binary l inner r => cases op <;> cases inner <;> rfl
  | _ => rfl

theorem isGroupedRight_eq (op : Connective) (n : Node) :
    n.isGroupedRight op = n.needsParensRight op := by
  cases n with
  | binary l inner r => cases op <;> cases inner <;> rfl
  | _ => rfl

variable {symbols : Symbols}

theorem text_groupIf {n : Node} {t : String} (h : n.text symbols = .ok t) (needed : Bool) :
    (groupIf needed n).text symbols = .ok (parenthesise needed t) := by
  cases needed with
  | false => exact h
  | true => exact text_group h

/-- Where groups stand, the printer adds nothing. -/
theorem isBinary_groupIf (n : Node) : (groupIf n.isBinary n.withGroups).isBinary = false := by
  cases n <;> rfl

theorem needsParensLeft_groupIf (op : Connective) (n : Node) :
    (groupIf (n.needsParensLeft op) n.withGroups).needsParensLeft op = false := by
  cases hneeded : n.needsParensLeft op with
  | true => rfl
  | false => cases n <;> first | rfl | exact hneeded

theorem needsParensRight_groupIf (op : Connective) (n : Node) :
    (groupIf (n.needsParensRight op) n.withGroups).needsParensRight op = false := by
  cases hneeded : n.needsParensRight op with
  | true => rfl
  | false => cases n <;> first | rfl | exact hneeded

theorem text_withGroups {n : Node} (hn : n.IsFormula) {t : String} (h : n.text symbols = .ok t) :
    n.withGroups.text symbols = .ok t := by
  induction hn generalizing t with
  | atom i => exact h
  | @neg x _ ih =>
    obtain ⟨u, hu, rfl⟩ := text_neg_inv h
    have htext := text_neg (text_groupIf (ih hu) x.isBinary)
    rwa [isBinary_groupIf] at htext
  | group _ ih =>
    obtain ⟨u, hu, rfl⟩ := text_group_inv h
    exact text_group (ih hu)
  | @binary l r op _ _ ihl ihr =>
    obtain ⟨u, w, hu, hw, rfl⟩ := text_binary_inv h
    have htext := text_binary op (text_groupIf (ihl hu) (l.needsParensLeft op))
      (text_groupIf (ihr hw) (r.needsParensRight op))
    rw [needsParensLeft_groupIf, needsParensRight_groupIf] at htext
    rwa [withGroups, isGroupedLeft_eq, isGroupedRight_eq]

end Node

end Propositional
