/-
The text of a statement reads back as the statement. This is so of all three
forms, and exactly: the printer adds no parentheses to what has been read and
leaves none out, so the text has the tokens that the statement was read from, up to
the spelling of signs (`Statement.printed`), and these decide tree, names and depth.
-/
import Propositional.Proofs.Grammar.Shape
import Propositional.Proofs.Printing.Reprint

namespace Propositional

open Grammar Propositional.Parser

/-- A text that lexes to the given tokens, up to the spelling of signs. -/
def Lexeme.Spells (text : String) (tokens : List Token) : Prop :=
  ∃ written, Lexes text.toList written ∧ written.map Token.unspelled = tokens.map Token.unspelled

namespace Lexeme

open Piece

theorem Spells.name {name : String} (h : IsName name) :
    Spells name [⟨.identifier, name⟩] :=
  ⟨_, .name h, rfl⟩

/-- Two texts with a sign between blanks; the sign may be spelled in another way than it was. -/
theorem Spells.joined {left right separator spelling : String} {kind : Token.Kind}
    {ls rs : List Token} (hl : Spells left ls)
    (hsign : ∀ rest, leadingOperator (spelling.toList ++ ' ' :: rest) = some (spelling, kind))
    (hseparator : separator.toList = [' '] ++ spelling.toList ++ [' '])
    (hlong : spelling.toList ≠ []) (hkind : kind ≠ .identifier) (sign : String)
    (hr : Spells right rs) :
    Spells (left ++ separator ++ right) (ls ++ ⟨kind, sign⟩ :: rs) := by
  obtain ⟨wl, hwl, hls⟩ := hl
  obtain ⟨wr, hwr, hrs⟩ := hr
  have htext : (left ++ separator ++ right).toList =
      left.toList ++ [' '] ++ spelling.toList ++ [' '] ++ right.toList := by
    simp [String.toList_append, hseparator]
  refine ⟨wl ++ ⟨kind, spelling⟩ :: wr, ?_, ?_⟩
  · rw [htext]
    exact hwl.joined hsign hlong hwr
  · simp [hls, hrs, Token.unspelled, hkind]

theorem Spells.applied {left right : String} {ls rs : List Token} (hl : Spells left ls)
    (sign : String) (hr : Spells right rs) :
    Spells (left ++ " => " ++ right) (ls ++ ⟨.applies, sign⟩ :: rs) := by
  have hsign : ∀ rest, leadingOperator ("=>".toList ++ ' ' :: rest) = some ("=>", .applies) :=
    fun _ => rfl
  exact hl.joined hsign (by decide) (by decide) (by decide) sign hr

theorem Spells.bound {left right : String} {ls rs : List Token} (hl : Spells left ls)
    (sign : String) (hr : Spells right rs) :
    Spells (left ++ " := " ++ right) (ls ++ ⟨.binds, sign⟩ :: rs) := by
  have hsign : ∀ rest, leadingOperator (":=".toList ++ ' ' :: rest) = some (":=", .binds) :=
    fun _ => rfl
  exact hl.joined hsign (by decide) (by decide) (by decide) sign hr

theorem Spells.equated {left right : String} {ls rs : List Token} (hl : Spells left ls)
    (sign : String) (hr : Spells right rs) :
    Spells (left ++ " = " ++ right) (ls ++ ⟨.equals, sign⟩ :: rs) := by
  have hsign : ∀ rest, leadingOperator ("=".toList ++ ' ' :: rest) = some ("=", .equals) :=
    fun _ => rfl
  exact hl.joined hsign (by decide) (by decide) (by decide) sign hr

end Lexeme

namespace Grammar

variable {symbols : Symbols} {tokens : List Token} {n : Node}

theorem Formula.printed (hnames : ∀ name ∈ symbols.names, IsName name)
    (h : Formula symbols.indexOf tokens n)
    (hmem : ∀ name ∈ Token.identifiers tokens, name ∈ symbols.names) :
    ∃ text, n.text symbols = .ok text ∧ Lexeme.Spells text tokens := by
  obtain ⟨text, htext⟩ := Node.text_formula h.isFormula (h.namedIn hmem)
  refine ⟨text, htext, n.withGroups.tokens symbols, Node.lexes_text hnames h.isFormula htext, ?_⟩
  rw [h.withGroups]
  exact h.unspelled_tokens fun name hname => Symbols.nameAt_indexOf (hmem name hname)

theorem Formula.printed_rule {left right : List Token} {lhs rhs : Node}
    (hnames : ∀ name ∈ symbols.names, IsName name)
    (hl : Formula symbols.indexOf left lhs) (hr : Formula symbols.indexOf right rhs)
    (hmem : ∀ name ∈ Token.identifiers (left ++ right), name ∈ symbols.names) (sign : String) :
    ∃ text, (Node.equivalence lhs rhs).ruleText symbols = .ok text ∧
      Lexeme.Spells text (left ++ ⟨.equals, sign⟩ :: right) := by
  obtain ⟨tl, htl, hsl⟩ := hl.printed hnames fun name hname => hmem name (by simp [hname])
  obtain ⟨tr, htr, hsr⟩ := hr.printed hnames fun name hname => hmem name (by simp [hname])
  exact ⟨_, Node.ruleText_equivalence htl htr, hsl.equated sign hsr⟩

/-- By induction on the rules of the chain, from the last one on. -/
theorem Rewrites.printed (hnames : ∀ name ∈ symbols.names, IsName name)
    (h : Rewrites symbols.indexOf tokens n)
    (hmem : ∀ name ∈ Token.identifiers tokens, name ∈ symbols.names) :
    ∃ text, n.text symbols = .ok text ∧ Lexeme.Spells text tokens := by
  induction h with
  | formula h => exact h.printed hnames hmem
  | @apply tokens left right target lhs rhs applies equals _ hl hr ih =>
    obtain ⟨tt, htt, hst⟩ := ih fun name hname => hmem name (by simp [hname])
    obtain ⟨tr, htr, hsr⟩ := hl.printed_rule hnames hr (fun name hname => hmem name (by
      rw [Token.identifiers_append, List.mem_append] at hname
      rcases hname with hname | hname <;> simp [Token.identifiers_cons, hname])) equals
    refine ⟨_, Node.text_application htt htr, ?_⟩
    simpa using hst.applied applies hsr

theorem Statement.printed (hnames : ∀ name ∈ symbols.names, IsName name)
    (h : Statement symbols.indexOf tokens n)
    (hmem : ∀ name ∈ Token.identifiers tokens, name ∈ symbols.names) :
    ∃ text, n.text symbols = .ok text ∧ Lexeme.Spells text tokens := by
  cases h with
  | rewrites h => exact h.printed hnames hmem
  | @byName tokens target applies name htarget =>
    obtain ⟨tt, htt, hst⟩ := htarget.printed hnames fun name hname => hmem name (by simp [hname])
    have hname : name ∈ symbols.names := hmem name (by simp [Token.identifiers_cons])
    have hrule := Node.ruleText_ruleName (Symbols.name?_indexOf hname)
    exact ⟨_, Node.text_application htt hrule, hst.applied applies (.name (hnames name hname))⟩
  | @binding left right lhs rhs name binds equals hl hr =>
    have hname : name ∈ symbols.names := hmem name (by simp [Token.identifiers_cons])
    obtain ⟨tr, htr, hsr⟩ := hl.printed_rule hnames hr (fun name hname => hmem name (by
      rw [Token.identifiers_append, List.mem_append] at hname
      rcases hname with hname | hname <;> simp [Token.identifiers_cons, hname])) equals
    have htarget := Node.text_atom (Symbols.name?_indexOf hname)
    exact ⟨_, Node.text_binding htarget htr, (Lexeme.Spells.name (hnames name hname)).bound binds hsr⟩

/-- **Printing undoes reading, on every statement.** Let any text, after any previous
one, be read as a statement: a formula, a chain of rules applied to one, or a binding.
The statement has a text over the names that were read. This text is free of malformed
pieces and reads, with no previous text and a table of its own, as the very same tree
with the very same names, and as deep; so it has the same text again. -/
theorem statement_reads_back (source previous : String) {n : Node}
    (h : (Stream.ofLexemes (Lexeme.ofSource source previous)).parse.outcome = .ok n) :
    ∃ text, n.text (Stream.ofLexemes (Lexeme.ofSource source previous)).parse.stream.symbols =
        .ok text ∧
      Lexeme.diagnostics (Lexeme.ofSource text) = [] ∧
      (Stream.ofLexemes (Lexeme.ofSource text)).parse.outcome = .ok n ∧
      (Stream.ofLexemes (Lexeme.ofSource text)).parse.stream.symbols =
        (Stream.ofLexemes (Lexeme.ofSource source previous)).parse.stream.symbols ∧
      (Stream.ofLexemes (Lexeme.ofSource text)).parse.depth =
        (Stream.ofLexemes (Lexeme.ofSource source previous)).parse.depth ∧
      n.text (Stream.ofLexemes (Lexeme.ofSource text)).parse.stream.symbols = .ok text := by
  obtain ⟨houtcome, hsymbols, hdepth⟩ := parse_ofLexemes (Lexeme.ofSource source previous) .empty
  rw [houtcome] at h
  rw [hsymbols, hdepth]
  have hstream := parse_stream h
  obtain ⟨text, htext, written, hlex, hsame⟩ := (parse_iff.1 h).printed
    (fun name hname => Lexeme.isName_afterTokens hname)
    (fun name hname => by
      rw [Symbols.afterTokens, Symbols.mem_internAll]
      exact .inr hname)
  have hback := parse_respelled h hsame.symm
  have hread : (Stream.ofLexemes (Lexeme.ofSource text)).parse =
      (Stream.ofTokens (Lexeme.tokens (Lexeme.ofSource source previous))).parse := by
    rw [hlex.ofSource]
    exact hback
  have htext' : n.text (Stream.ofTokens (Lexeme.tokens
      (Lexeme.ofSource source previous))).parse.stream.symbols = .ok text := by
    rwa [hstream]
  refine ⟨text, htext', ?_, ?_⟩
  · rw [hlex.ofSource, Lexeme.diagnostics_map_token]
  · rw [hread]
    exact ⟨h, rfl, rfl, htext'⟩

/-- What `ans rule a|~b = b => r` is read as after the text `p and ans $`. -/
def keywordChain : Node :=
  .application
    (.application (.binary (.atom 0) .conj (.atom 1))
      (.equivalence (.binary (.atom 2) .disj (.neg (.atom 3))) (.atom 3)))
    (.ruleName 4)

/-- A chain that ends with a name, put into other words, over an atom with the name `ans`. -/
theorem statement_reads_back_chain :
    let read := (Stream.ofLexemes (Lexeme.ofSource "ans rule a|~b = b => r" "p and ans $")).parse
    read.outcome = .ok keywordChain ∧
      ∃ text, keywordChain.text read.stream.symbols = .ok text ∧
        text = "p & ans => a | ~b = b => r" ∧
        (Stream.ofLexemes (Lexeme.ofSource text)).parse.outcome = .ok keywordChain := by
  intro read
  have hread : read.outcome = .ok keywordChain := rfl
  obtain ⟨text, htext, -, hback, -⟩ := statement_reads_back _ _ hread
  have hshown : (keywordChain.text read.stream.symbols).toOption =
      some "p & ans => a | ~b = b => r" := by
    decide
  rw [htext] at hshown
  exact ⟨hread, text, htext, Option.some.inj hshown, hback⟩

end Grammar

end Propositional
