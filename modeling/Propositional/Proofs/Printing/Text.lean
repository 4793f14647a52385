/-
Texts of formulas. A formula has a text as soon as its atoms have names
(`text_formula`); its text is put together from those of its operands, and they
have texts where it has one.
-/
import Propositional.Node.Printer

namespace Propositional.Node

variable {symbols : Symbols}

/-! ## The text of a node from those of its operands -/

-- `render` is unfolded in these equations and nowhere below.
theorem text_atom_eq (i : Int) : (atom i).text symbols = symbols.nameOf i := rfl

theorem text_neg_eq (x : Node) :
    (neg x).text symbols = do
      let t ← x.text symbols
      return "~" ++ parenthesise x.isBinary t := rfl

theorem text_group_eq (x : Node) :
    (group x).text symbols = do
      let t ← x.text symbols
      return "(" ++ t ++ ")" := rfl

theorem text_binary_eq (l r : Node) (op : Connective) :
    (binary l op r).text symbols = do
      let t ← l.text symbols
      let u ← r.text symbols
      return parenthesise (l.needsParensLeft op) t ++ " " ++ op.symbol ++ " " ++
        parenthesise (r.needsParensRight op) u := rfl

theorem text_application_eq (t r : Node) :
    (application t r).text symbols = do
      let target ← t.text symbols
      let rule ← r.ruleText symbols
      return target ++ " => " ++ rule := rfl

theorem text_binding_eq (t r : Node) :
    (binding t r).text symbols = do
      let target ← t.text symbols
      let rule ← r.ruleText symbols
      return target ++ " := " ++ rule := rfl

theorem text_atom {i : Int} {name : String} (h : symbols.name? i = some name) :
    (atom i).text symbols = .ok name := by
  rw [text_atom_eq, Symbols.nameOf, h]

theorem text_neg {x : Node} {t : String} (h : x.text symbols = .ok t) :
    (neg x).text symbols = .ok ("~" ++ parenthesise x.isBinary t) := by
  rw [text_neg_eq, h]
  rfl

theorem text_group {x : Node} {t : String} (h : x.text symbols = .ok t) :
    (group x).text symbols = .ok ("(" ++ t ++ ")") := by
  rw [text_group_eq, h]
  rfl

theorem text_binary {l r : Node} {t u : String} (op : Connective) (hl : l.text symbols = .ok t)
    (hr : r.text symbols = .ok u) :
    (binary l op r).text symbols =
      .ok (parenthesise (l.needsParensLeft op) t ++ " " ++ op.symbol ++ " " ++
        parenthesise (r.needsParensRight op) u) := by
  rw [text_binary_eq, hl, hr]
  rfl

theorem ruleText_equivalence {l r : Node} {t u : String} (hl : l.text symbols = .ok t)
    (hr : r.text symbols = .ok u) :
    (equivalence l r).ruleText symbols = .ok (t ++ " = " ++ u) := by
  have hrule : (equivalence l r).ruleText symbols = do
      let t ← l.text symbols
      let u ← r.text symbols
      return t ++ " = " ++ u := rfl
  rw [hrule, hl, hr]
  rfl

theorem ruleText_ruleName {i : Int} {name : String} (h : symbols.name? i = some name) :
    (ruleName i).ruleText symbols = .ok name := by
  have hrule : (ruleName i).ruleText symbols = symbols.nameOf i := rfl
  rw [hrule, Symbols.nameOf, h]

theorem text_application {t r : Node} {target rule : String} (ht : t.text symbols = .ok target)
    (hr : r.ruleText symbols = .ok rule) :
    (application t r).text symbols = .ok (target ++ " => " ++ rule) := by
  rw [text_application_eq, ht, hr]
  rfl

theorem text_binding {t r : Node} {target rule : String} (ht : t.text symbols = .ok target)
    (hr : r.ruleText symbols = .ok rule) :
    (binding t r).text symbols = .ok (target ++ " := " ++ rule) := by
  rw [text_binding_eq, ht, hr]
  rfl

/-! ## Texts of the operands of what has a text -/

theorem text_atom_inv {i : Int} {t : String} (h : (atom i).text symbols = .ok t) :
    symbols.name? i = some t := by
  rw [text_atom_eq, Symbols.nameOf] at h
  split at h
  · next name hname =>
    cases h
    exact hname
  · cases h

theorem text_neg_inv {x : Node} {t : String} (h : (neg x).text symbols = .ok t) :
    ∃ u, x.text symbols = .ok u ∧ "~" ++ parenthesise x.isBinary u = t := by
  rw [text_neg_eq] at h
  obtain ⟨u, hu, h⟩ := bind_eq_ok h
  exact ⟨u, hu, Except.ok.inj h⟩

theorem text_group_inv {x : Node} {t : String} (h : (group x).text symbols = .ok t) :
    ∃ u, x.text symbols = .ok u ∧ "(" ++ u ++ ")" = t := by
  rw [text_group_eq] at h
  obtain ⟨u, hu, h⟩ := bind_eq_ok h
  exact ⟨u, hu, Except.ok.inj h⟩

theorem text_binary_inv {l r : Node} {op : Connective} {t : String}
    (h : (binary l op r).text symbols = .ok t) :
    ∃ u w, l.text symbols = .ok u ∧ r.text symbols = .ok w ∧
      parenthesise (l.needsParensLeft op) u ++ " " ++ op.symbol ++ " " ++
        parenthesise (r.needsParensRight op) w = t := by
  rw [text_binary_eq] at h
  obtain ⟨u, hu, h⟩ := bind_eq_ok h
  obtain ⟨w, hw, h⟩ := bind_eq_ok h
  exact ⟨u, w, hu, hw, Except.ok.inj h⟩

/-- A formula whose atoms have names has a text. -/
theorem text_formula {n : Node} (h : n.IsFormula)
    (hi : ∀ i ∈ n.atoms, (symbols.name? i).isSome) : ∃ t, n.text symbols = .ok t := by
  induction h with
  | atom i =>
    obtain ⟨name, hname⟩ := Option.isSome_iff_exists.1 (hi i (by simp [atoms]))
    exact ⟨name, text_atom hname⟩
  | neg _ ih =>
    obtain ⟨t, ht⟩ := ih hi
    exact ⟨_, text_neg ht⟩
  | group _ ih =>
    obtain ⟨t, ht⟩ := ih hi
    exact ⟨_, text_group ht⟩
  | binary op _ _ ihl ihr =>
    obtain ⟨t, ht⟩ := ihl fun i hm => hi i (List.mem_append_left _ hm)
    obtain ⟨u, hu⟩ := ihr fun i hm => hi i (List.mem_append_right _ hm)
    exact ⟨_, text_binary op ht hu⟩

/-- The atoms of what has a text have names. -/
theorem name?_of_text {n : Node} {t : String} {i : Int}
    (h : n.text symbols = .ok t) (hi : i ∈ n.atoms) : ∃ name, symbols.name? i = some name := by
  induction n generalizing t with
  | atom j =>
    rw [List.mem_singleton.1 hi]
    exact ⟨t, text_atom_inv h⟩
  | neg x ih =>
    obtain ⟨u, hu, -⟩ := text_neg_inv h
    exact ih hu hi
  | group x ih =>
    obtain ⟨u, hu, -⟩ := text_group_inv h
    exact ih hu hi
  | binary l op r ihl ihr =>
    obtain ⟨u, w, hu, hw, -⟩ := text_binary_inv h
    exact (List.mem_append.1 hi).elim (ihl hu) (ihr hw)
  | equivalence | ruleName | application | binding | stray => cases hi

end Propositional.Node
