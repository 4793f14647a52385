/-
The text of a formula reads back as the formula, with a group wherever the
printer has put parentheses. The text lexes to the tokens of that tree
(`lexes_text`), and the grammar derives the tree from them, each operand at
its own level (`derives_tokens`); the parser answers what the grammar derives.
-/
import Propositional.Proofs.Grammar.Parse
import Propositional.Proofs.Lexing
import Propositional.Proofs.Printing.Groups
import Propositional.Semantics

namespace Propositional

open Grammar Propositional.Parser

namespace Node

variable {symbols : Symbols}

/-- The tokens of a formula whose groups are all the parentheses it needs. -/
def tokens (symbols : Symbols) : Node → List Token
  | atom i => [⟨.identifier, symbols.nameAt i⟩]
  | neg x => ⟨.negation, "~"⟩ :: x.tokens symbols
  | group x => ⟨.opening, "("⟩ :: x.tokens symbols ++ [⟨.closing, ")"⟩]
  | binary l op r => l.tokens symbols ++ ⟨.connective op, op.symbol⟩ :: r.tokens symbols
  | _ => []

theorem identifiers_tokens (symbols : Symbols) (n : Node) :
    Token.identifiers (n.tokens symbols) = n.atoms.map symbols.nameAt := by
  induction n with
  | atom i => simp [tokens, atoms, Token.identifiers_cons]
  | neg x ih => simp [tokens, atoms, Token.identifiers_cons, ih]
  | group x ih => simp [tokens, atoms, Token.identifiers_cons, ih]
  | binary l op r ihl ihr => simp [tokens, atoms, Token.identifiers_cons, ihl, ihr]
  | equivalence | ruleName | application | binding | stray => rfl

/-! ## Texts lex to tokens -/

theorem lexes_groupIf {n : Node} {t : String} (h : Lexeme.Lexes t.toList (n.tokens symbols))
    (needed : Bool) :
    Lexeme.Lexes (parenthesise needed t).toList ((groupIf needed n).tokens symbols) := by
  cases needed with
  | false => exact h
  | true =>
    have htext : (parenthesise true t).toList = '(' :: t.toList ++ [')'] := by
      simp [parenthesise]
    rw [htext]
    exact h.parens

theorem lexes_text (hnames : ∀ name ∈ symbols.names, IsName name) {n : Node} (hn : n.IsFormula)
    {t : String} (h : n.text symbols = .ok t) :
    Lexeme.Lexes t.toList (n.withGroups.tokens symbols) := by
  induction hn generalizing t with
  | atom i =>
    have hname := text_atom_inv h
    have hat : symbols.nameAt i = t := by rw [Symbols.nameAt, hname, Option.getD_some]
    show Lexeme.Lexes t.toList [⟨.identifier, symbols.nameAt i⟩]
    rw [hat]
    exact .name (hnames t (Symbols.mem_of_name? hname))
  | @neg x _ ih =>
    obtain ⟨u, hu, rfl⟩ := text_neg_inv h
    rw [String.toList_append]
    exact (lexes_groupIf (ih hu) x.isBinary).negation
  | group _ ih =>
    obtain ⟨u, hu, rfl⟩ := text_group_inv h
    exact lexes_groupIf (ih hu) true
  | @binary l r op _ _ ihl ihr =>
    obtain ⟨u, w, hu, hw, rfl⟩ := text_binary_inv h
    have hl := lexes_groupIf (ihl hu) (l.isGroupedLeft op)
    have hr := lexes_groupIf (ihr hw) (r.isGroupedRight op)
    rw [withGroups, tokens, ← isGroupedLeft_eq, ← isGroupedRight_eq]
    simp only [String.toList_append]
    exact hl.binary op hr

/-! ## The grammar derives the tree from the tokens -/

/-- The level of formulas to which a formula belongs by its form. -/
def level : Node → Level
  | neg _ => .negation
  | binary _ op _ => .chain op
  | _ => .operand

theorem rank_level_le (n : Node) : n.level.rank ≤ Connective.bicond.rank + 1 := by
  cases n with
  | binary l op r =>
    have hop : op.rank ≤ Connective.bicond.rank := by cases op <;> decide
    exact Nat.succ_le_succ hop
  | _ => exact Nat.zero_le _

theorem rank_level_of_isBinary {n : Node} (h : n.isBinary = false) : n.level.rank = 0 := by
  cases n with
  | binary l op r => cases h
  | _ => rfl

theorem rank_level_of_isGroupedLeft {op : Connective} {n : Node} (h : n.isGroupedLeft op = false) :
    n.level.rank ≤ op.rank + 1 := by
  cases n with
  | binary l inner r =>
    rw [isGroupedLeft_eq, needsParensLeft, decide_eq_false_iff_not] at h
    exact Nat.succ_le_succ (Nat.not_lt.1 h)
  | _ => exact Nat.zero_le _

theorem rank_level_of_isGroupedRight {op : Connective} {n : Node}
    (h : n.isGroupedRight op = false) : n.level.rank ≤ op.rank := by
  cases n with
  | binary l inner r =>
    rw [isGroupedRight_eq, needsParensRight, decide_eq_false_iff_not] at h
    exact Nat.lt_of_not_le h
  | _ => exact Nat.zero_le _

variable {index : String → Int} {σ : Int → Node}

theorem derives_groupIf {level : Level} {n : Node} {rank : Nat} (needed : Bool)
    (h : Derives index level (n.tokens symbols) (n.subst σ))
    (hle : level.rank ≤ Connective.bicond.rank + 1) (hfits : needed = false → level.rank ≤ rank) :
    ∃ fitting : Level, fitting.rank ≤ rank ∧
      Derives index fitting ((groupIf needed n).tokens symbols) ((groupIf needed n).subst σ) := by
  cases needed with
  | false => exact ⟨level, hfits rfl, h⟩
  | true => exact ⟨.operand, Nat.zero_le _, .parens "(" ")" (h.toChain hle)⟩

/-- The grammar derives a formula with its parentheses from its tokens, if each
atom gets the index of its name. -/
theorem derives_tokens (index : String → Int) (symbols : Symbols) {n : Node} (hn : n.IsFormula) :
    Derives index n.level (n.withGroups.tokens symbols)
      (n.withGroups.subst fun i => .atom (index (symbols.nameAt i))) := by
  induction hn with
  | atom i => exact .identifier (symbols.nameAt i)
  | @neg x _ ih =>
    obtain ⟨fitting, hrank, hd⟩ := derives_groupIf x.isBinary ih (rank_level_le x)
      fun h => Nat.le_of_eq (rank_level_of_isBinary h)
    exact .negation "~" (hd.toNegation (Nat.le_zero.1 hrank))
  | @group x _ ih => exact .parens "(" ")" (ih.toChain (rank_level_le x))
  | @binary l r op _ _ ihl ihr =>
    obtain ⟨_, hleft, hl⟩ := derives_groupIf (l.isGroupedLeft op) ihl (rank_level_le l)
      rank_level_of_isGroupedLeft
    obtain ⟨_, hright, hr⟩ := derives_groupIf (r.isGroupedRight op) ihr (rank_level_le r)
      rank_level_of_isGroupedRight
    exact .chain op.symbol (hl.toChain hleft) (hr.toJoined hright)

/-- The text of a formula reads back, in any table, as the formula with its parentheses
as groups and each atom under the index that its name has afterwards. -/
theorem text_parse (hnames : ∀ name ∈ symbols.names, IsName name) {n : Node} (hn : n.IsFormula)
    {t : String} (h : n.text symbols = .ok t) (table : Symbols) :
    Lexeme.diagnostics (Lexeme.ofSource t) = [] ∧
      (Stream.ofLexemes (Lexeme.ofSource t) table).parse.stream.symbols =
        table.internAll (n.atoms.map symbols.nameAt) ∧
      (Stream.ofLexemes (Lexeme.ofSource t) table).parse.outcome =
        .ok (n.withGroups.subst fun i =>
          .atom ((table.internAll (n.atoms.map symbols.nameAt)).indexOf (symbols.nameAt i))) := by
  have hlex := (lexes_text hnames hn h).ofSource
  have htable : table.afterTokens (n.withGroups.tokens symbols) =
      table.internAll (n.atoms.map symbols.nameAt) := by
    rw [Symbols.afterTokens, identifiers_tokens, atoms_withGroups]
  have hderives := derives_tokens (table.afterTokens (n.withGroups.tokens symbols)).indexOf symbols hn
  have hread := parse_iff.2 (.rewrites (.formula (hderives.toChain (rank_level_le n))))
  rw [htable] at hread
  rw [hlex]
  refine ⟨?_, ?_, hread⟩
  · simp [Lexeme.diagnostics, List.filterMap_map, Function.comp_def, Lexeme.diagnostic?]
  · rw [← htable]
    exact congrArg Stream.symbols (parse_stream hread)

theorem tokens_parse (symbols : Symbols) {n : Node} (hn : n.IsFormula) :
    (Stream.ofTokens (n.withGroups.tokens symbols)).parse.outcome =
      .ok (n.withGroups.renumbered fun i =>
        (Symbols.empty.afterTokens (n.withGroups.tokens symbols)).indexOf (symbols.nameAt i)) :=
  parse_iff.2 (.rewrites (.formula ((derives_tokens _ symbols hn).toChain (rank_level_le n))))

theorem text_ne_empty (hnames : ∀ name ∈ symbols.names, IsName name) {n : Node} (hn : n.IsFormula)
    {t : String} (h : n.text symbols = .ok t) : t ≠ "" := by
  rintro rfl
  have hlex := (lexes_text hnames hn h).ofSource
  have hnone : n.withGroups.tokens symbols = [] := List.map_eq_nil_iff.1 hlex.symm
  have hread := tokens_parse symbols hn
  rw [hnone] at hread
  cases hread

/-- **The printer is safe on every formula.** Whatever way a formula over the
names of a table has been built, it has a text; the text is free of malformed
pieces and reads back, in that table, without adding a name, as the formula with
a group around each binary node that is negated, or the left side of a tighter
connective, or the right side of one that is the same or tighter. That tree is
the formula up to groups, has its truth value under every valuation, and has the
same text again. -/
theorem text_reads_back {symbols : Symbols} (hnames : ∀ name ∈ symbols.names, IsName name)
    {e : Node} (he : e.IsFormula) (hatoms : ∀ i ∈ e.atoms, 0 ≤ i ∧ i < symbols.size) :
    ∃ t, e.text symbols = .ok t ∧
      Lexeme.diagnostics (Lexeme.ofSource t) = [] ∧
      (Stream.ofLexemes (Lexeme.ofSource t) symbols).parse.outcome = .ok e.withGroups ∧
      (Stream.ofLexemes (Lexeme.ofSource t) symbols).parse.stream.symbols = symbols ∧
      e.withGroups.eraseGroups = e.eraseGroups ∧
      (∀ v, e.withGroups.holds v = e.holds v) ∧
      e.withGroups.text symbols = .ok t := by
  have hat : ∀ i ∈ e.atoms, ∃ name ∈ symbols.names,
      symbols.name? i = some name ∧ symbols.indexOf name = i :=
    fun i hi => Symbols.name?_of_lt (hatoms i hi).1 (hatoms i hi).2
  obtain ⟨t, ht⟩ : ∃ t, e.text symbols = .ok t := by
    refine text_formula he fun i hi => ?_
    obtain ⟨name, -, hname, -⟩ := hat i hi
    rw [hname, Option.isSome_some]
  have hknown : symbols.internAll (e.atoms.map symbols.nameAt) = symbols := by
    refine Symbols.internAll_known fun name hmem => ?_
    obtain ⟨i, hi, rfl⟩ := List.mem_map.1 hmem
    obtain ⟨name, hmem, hname, -⟩ := hat i hi
    rwa [Symbols.nameAt, hname, Option.getD_some]
  have hsame : (e.withGroups.subst fun i => .atom (symbols.indexOf (symbols.nameAt i))) =
      e.withGroups := by
    rw [subst_congr (τ := atom), subst_atom]
    intro i hi
    rw [atoms_withGroups] at hi
    obtain ⟨name, -, hname, hindex⟩ := hat i hi
    rw [Symbols.nameAt, hname, Option.getD_some, hindex]
  obtain ⟨hclean, hsymbols, hread⟩ := text_parse hnames he ht symbols
  rw [hknown] at hsymbols hread
  rw [hsame] at hread
  exact ⟨t, ht, hclean, hread, hsymbols, eraseGroups_withGroups e, fun v => holds_withGroups v e,
    text_withGroups he ht⟩

/-- Parentheses of all three kinds. -/
theorem text_reads_back_nested :
    let symbols := Symbols.ofList ["p", "q", "r"]
    let e := neg (binary (binary (atom 0) .bicond (atom 1)) .conj (binary (atom 2) .conj (atom 0)))
    (∀ name ∈ symbols.names, IsName name) ∧ e.IsFormula ∧
      (∀ i ∈ e.atoms, 0 ≤ i ∧ i < symbols.size) ∧
      (Stream.ofLexemes (Lexeme.ofSource "~((p <-> q) & (r & p))") symbols).parse.outcome =
        .ok (neg (group (binary (group (binary (atom 0) .bicond (atom 1))) .conj
          (group (binary (atom 2) .conj (atom 0)))))) := by
  intro symbols e
  have hnames : ∀ name ∈ symbols.names, IsName name := by decide
  have he : e.IsFormula := by decide
  have hatoms : ∀ i ∈ e.atoms, 0 ≤ i ∧ i < symbols.size := by decide
  refine ⟨hnames, he, hatoms, ?_⟩
  obtain ⟨t, ht, -, hread, -⟩ := text_reads_back hnames he hatoms
  have htext : (e.text symbols).toOption = some "~((p <-> q) & (r & p))" := by decide
  rw [ht] at htext
  rwa [Option.some.inj htext] at hread

end Node

end Propositional
