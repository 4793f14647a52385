/-
Other names for the same statement. If different identifiers stay different, the renamed tokens
match the tokens (`Matching`), and are read to the same tree, with the renamed names under the same
indices. Truth tables are made from the tree and its indices, and have the names of atoms in the
headers alone (`ofFormula_of_symbols`).
-/
import Propositional.Proofs.Grammar.Spelling
import Propositional.Proofs.TruthTable.Columns

namespace Propositional

namespace Token

/-- The token with another name, if it is an identifier. -/
def renamed (ρ : String → String) (t : Token) : Token :=
  if t.kind = .identifier then ⟨.identifier, ρ t.text⟩ else t

theorem matching_renamed (ρ : String → String) : Matching ρ (fun t u => u = t.renamed ρ) where
  kind := by
    rintro t u rfl
    rw [renamed]
    split
    · next h => exact h.symm
    · rfl
  text := by
    rintro t u rfl h
    rw [renamed, if_pos h]

end Token

theorem TruthTable.ofFormula_of_symbols {n : Node} {symbols : Symbols} {t : TruthTable}
    (h : ofFormula n symbols = .ok t) (symbols' : Symbols) :
    ofFormula n symbols' = .ok { t with symbols := symbols' } := by
  obtain ⟨atoms, hatoms, h⟩ := bind_eq_ok h
  rw [ofFormula, hatoms]
  simp only [bind, Except.bind]
  split at h
  · cases h
    rfl
  · cases h

namespace Grammar

open Propositional.Parser

/-- **Reading commutes with renaming.** Let identifiers be renamed so that different ones in the
list of tokens stay different. The renamed tokens are a statement if and only if the tokens are,
and with the same tree; if they are not, the failure is the same but for the name in the token
that it shows. The names in the table are the renamed names, in their order, also where reading
fails. So the tables of a formula and of the renamed formula are the same, atoms, columns and
all, but for these names. Nor does it make a difference to tree, names or failure how signs are
spelled. -/
theorem reading_commutes_with_renaming {ρ : String → String} {tokens : List Token}
    (hρ : KeepsApart ρ (Token.identifiers tokens)) :
    let reading := (Stream.ofTokens tokens).parse
    let renamed := (Stream.ofTokens (tokens.map (Token.renamed ρ))).parse
    (∀ n, renamed.outcome = .ok n ↔ reading.outcome = .ok n) ∧
    (∀ failure, reading.outcome = .error failure →
      ∃ failure', renamed.outcome = .error failure' ∧
        failure.Same (fun t u => u = t.renamed ρ) failure') ∧
    renamed.stream.symbols.names = reading.stream.symbols.names.map ρ ∧
    (∀ n, reading.outcome = .ok n → n.IsFormula →
      ∃ t, TruthTable.ofFormula n reading.stream.symbols = .ok t ∧
        TruthTable.ofFormula n renamed.stream.symbols =
          .ok { t with symbols := renamed.stream.symbols }) ∧
    ∀ others, tokens.map Token.unspelled = others.map Token.unspelled →
      let respelled := (Stream.ofTokens others).parse
      (∀ n, respelled.outcome = .ok n ↔ reading.outcome = .ok n) ∧
      (∀ failure, reading.outcome = .error failure →
        ∃ failure', respelled.outcome = .error failure' ∧
          failure.Same (fun t u => t.unspelled = u.unspelled) failure') ∧
      respelled.stream.symbols = reading.stream.symbols := by
  intro reading renamed
  have hpairs : List.Forall₂ (fun t u => u = t.renamed ρ) tokens (tokens.map (Token.renamed ρ)) :=
    List.forall₂_map_right_iff.2 (List.forall₂_same.2 fun _ _ => rfl)
  have hempty : ∀ σ, Symbols.empty.names = Symbols.empty.names.map σ := fun _ => rfl
  obtain ⟨houtcome, hnames, -⟩ :=
    parse_renamed (Token.matching_renamed ρ) hpairs (hempty ρ) hρ
  refine ⟨houtcome.ok_iff, fun failure => houtcome.of_error, hnames, fun n _ hn => ?_,
    fun others hsame => ?_⟩
  · obtain ⟨t, ht, -⟩ := TruthTable.ofFormula_tabulates hn reading.stream.symbols
    exact ⟨t, ht, TruthTable.ofFormula_of_symbols ht _⟩
  · obtain ⟨houtcome, hnames, -⟩ := parse_renamed Token.matching_unspelled
      (Token.forall₂_unspelled hsame) (hempty id) fun _ _ _ _ h => h
    refine ⟨houtcome.ok_iff, fun failure => houtcome.of_error, Symbols.ext ?_⟩
    rw [hnames, List.map_id]

/-- Two names change places. The formula has the same tree and the same table, its names the
other order. -/
theorem reading_commutes_with_renaming_swapped :
    let swap := fun name => if name = "p" then "q" else if name = "q" then "p" else name
    let tokens : List Token := [⟨.identifier, "p"⟩, ⟨.connective .cond, "implies"⟩,
      ⟨.negation, "~"⟩, ⟨.identifier, "q"⟩]
    let swapped := (Stream.ofTokens (tokens.map (Token.renamed swap))).parse
    KeepsApart swap (Token.identifiers tokens) ∧
      swapped.outcome = .ok (.binary (.atom 0) .cond (.neg (.atom 1))) ∧
      swapped.stream.symbols.names = ["q", "p"] := by
  intro swap tokens swapped
  have hswap : KeepsApart swap (Token.identifiers tokens) := by
    unfold KeepsApart
    decide
  obtain ⟨hok, -, hnames, -⟩ := reading_commutes_with_renaming hswap
  exact ⟨hswap, (hok _).2 rfl, hnames⟩

end Grammar

end Propositional
