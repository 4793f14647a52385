/-
What has been read prints to a text that reads the same. A tree that the grammar
derives has groups wherever the printer would put parentheses (`Derives.withGroups`),
so its text has the tokens that it was read from, up to the spelling of signs
(`Derives.unspelled_tokens`). Numbering its atoms anew does not change a text either, as long
as they keep their names (`text_renumbered`).
-/
import Propositional.Proofs.Grammar.Spelling
import Propositional.Proofs.Printing.RoundTrip

namespace Propositional

open Grammar Propositional.Parser

/-! ## Trees that need no groups -/

namespace Node

theorem isBinary_of_rank {n : Node} (h : n.level.rank = 0) : n.isBinary = false := by
  cases n with
  | binary l op r => cases h
  | _ => rfl

theorem isGroupedLeft_of_rank {op : Connective} {n : Node} (h : n.level.rank ≤ op.rank + 1) :
    n.isGroupedLeft op = false := by
  cases n with
  | binary l inner r =>
    rw [isGroupedLeft_eq, needsParensLeft, decide_eq_false_iff_not]
    exact Nat.not_lt.2 (Nat.le_of_succ_le_succ h)
  | _ => rfl

theorem isGroupedRight_of_rank {op : Connective} {n : Node} (h : n.level.rank ≤ op.rank) :
    n.isGroupedRight op = false := by
  cases n with
  | binary l inner r =>
    rw [isGroupedRight_eq, needsParensRight, decide_eq_false_iff_not]
    exact Nat.not_le.2 h
  | _ => rfl

end Node

namespace Grammar

variable {index : String → Int} {level : Level} {tokens : List Token} {n : Node}

theorem Derives.rank_level (h : Derives index level tokens n) : n.level.rank ≤ level.rank := by
  induction h with
  | identifier | parens | negation | chain => exact Nat.le_refl _
  | operand _ ih => exact ih
  | @joined op _ _ _ ih =>
    rw [Level.rank_joinedBy] at ih
    exact Nat.le_succ_of_le ih

theorem Derives.withGroups (h : Derives index level tokens n) : n.withGroups = n := by
  induction h with
  | identifier name => rfl
  | parens _ _ _ ih => rw [Node.withGroups, ih]
  | operand _ ih | joined _ ih => exact ih
  | negation _ hx ih =>
    rw [Node.withGroups, Node.isBinary_of_rank (Nat.le_zero.1 hx.rank_level), ih]
    rfl
  | @chain op _ _ _ _ _ hl hr ihl ihr =>
    have hright := hr.rank_level
    rw [Level.rank_joinedBy] at hright
    rw [Node.withGroups, Node.isGroupedLeft_of_rank hl.rank_level,
      Node.isGroupedRight_of_rank hright, ihl, ihr]
    rfl

/-- The tokens of a tree are those it was derived from, up to the spelling of signs. -/
theorem Derives.unspelled_tokens {symbols : Symbols} (h : Derives index level tokens n)
    (hnames : ∀ name ∈ Token.identifiers tokens, symbols.nameAt (index name) = name) :
    (n.tokens symbols).map Token.unspelled = tokens.map Token.unspelled := by
  induction h with
  | identifier name =>
    rw [Node.tokens, hnames name (by simp [Token.identifiers_cons])]
  | parens o c _ ih =>
    have hinner := ih fun name hname => hnames name (by simp [Token.identifiers_cons, hname])
    simp only [Node.tokens, List.cons_append, List.map_cons, List.map_append, hinner]
    rfl
  | operand _ ih | joined _ ih => exact ih hnames
  | negation sign _ ih =>
    have hinner := ih fun name hname => hnames name (by simp [Token.identifiers_cons, hname])
    simp only [Node.tokens, List.map_cons, hinner]
    rfl
  | chain sign _ _ ihl ihr =>
    have hl := ihl fun name hname => hnames name (by simp [hname])
    have hr := ihr fun name hname => hnames name (by simp [Token.identifiers_cons, hname])
    simp only [Node.tokens, List.map_append, List.map_cons, hl, hr]
    rfl

theorem Statement.derives (h : Statement index tokens n) (hn : n.IsFormula) :
    Formula index tokens n := by
  cases h with
  | rewrites h =>
    cases h with
    | formula h => exact h
    | apply => cases hn
  | byName | binding => cases hn

end Grammar

/-! ## Texts -/

namespace Node

variable {symbols table : Symbols}

theorem isBinary_renumbered (ρ : Int → Int) (n : Node) :
    (n.subst fun i => .atom (ρ i)).isBinary = n.isBinary := by
  cases n <;> rfl

theorem needsParensLeft_renumbered (ρ : Int → Int) (op : Connective) (n : Node) :
    (n.subst fun i => .atom (ρ i)).needsParensLeft op = n.needsParensLeft op := by
  cases n <;> rfl

theorem needsParensRight_renumbered (ρ : Int → Int) (op : Connective) (n : Node) :
    (n.subst fun i => .atom (ρ i)).needsParensRight op = n.needsParensRight op := by
  cases n <;> rfl

/-- A formula keeps its text when its atoms keep their names. -/
theorem text_renumbered {ρ : Int → Int} {n : Node} (hn : n.IsFormula) {t : String}
    (h : n.text symbols = .ok t) (hρ : ∀ i ∈ n.atoms, table.name? (ρ i) = symbols.name? i) :
    (n.subst fun i => .atom (ρ i)).text table = .ok t := by
  induction hn generalizing t with
  | atom i =>
    refine text_atom ?_
    rw [hρ i (List.mem_singleton_self i), text_atom_inv h]
  | neg _ ih =>
    obtain ⟨u, hu, rfl⟩ := text_neg_inv h
    have htext := text_neg (ih hu hρ)
    rwa [isBinary_renumbered] at htext
  | group _ ih =>
    obtain ⟨u, hu, rfl⟩ := text_group_inv h
    exact text_group (ih hu hρ)
  | binary op _ _ ihl ihr =>
    obtain ⟨u, w, hu, hw, rfl⟩ := text_binary_inv h
    have hl := ihl hu fun i hi => hρ i (List.mem_append_left _ hi)
    have hr := ihr hw fun i hi => hρ i (List.mem_append_right _ hi)
    have htext := text_binary op hl hr
    rwa [needsParensLeft_renumbered, needsParensRight_renumbered] at htext

/-- **What has been read as a formula prints to a text that reads the same**: with the
same tree, the same names, and as deep. -/
theorem tokens_read {tokens : List Token} {n : Node}
    (hread : (Stream.ofTokens tokens).parse.outcome = .ok n) (hn : n.IsFormula) :
    (Stream.ofTokens (n.tokens (Stream.ofTokens tokens).parse.stream.symbols)).parse =
      (Stream.ofTokens tokens).parse := by
  rw [parse_stream hread]
  refine parse_respelled hread ?_
  have hderives := (parse_iff.1 hread).derives hn
  refine (hderives.unspelled_tokens fun name hname => Symbols.nameAt_indexOf ?_).symm
  rw [Symbols.afterTokens, Symbols.mem_internAll]
  exact .inr hname

end Node

end Propositional
