/-
How signs are spelled does not matter to the parser. A statement whose signs are
spelled in another way is one of matching tokens, in which no name has changed, so
it reads in the same way throughout: the same tree, the same names, the same depth
(`parse_respelled`).
-/
import Propositional.Proofs.Grammar.Matching
import Propositional.Proofs.Grammar.Parse

namespace Propositional

namespace Token

/-- The token with the spelling of its sign left out. An identifier stays as it is. -/
def unspelled (t : Token) : Token := if t.kind = .identifier then t else ⟨t.kind, ""⟩

@[simp] theorem kind_unspelled (t : Token) : t.unspelled.kind = t.kind := by
  rw [unspelled]
  split <;> rfl

theorem unspelled_eq {t u : Token} (h : t.unspelled = u.unspelled) :
    t = u ∨ t.kind ≠ .identifier ∧ t.kind = u.kind := by
  have hkind : t.kind = u.kind := by rw [← t.kind_unspelled, h, u.kind_unspelled]
  by_cases ht : t.kind = .identifier
  · rw [unspelled, unspelled, if_pos ht, if_pos (hkind ▸ ht)] at h
    exact .inl h
  · exact .inr ⟨ht, hkind⟩

theorem matching_unspelled : Matching id (fun t u => t.unspelled = u.unspelled) where
  kind := by
    intro t u h
    rw [← t.kind_unspelled, h, u.kind_unspelled]
  text := by
    intro t u h hkind
    rcases unspelled_eq h with rfl | ⟨hsign, -⟩
    · rfl
    · exact absurd hkind hsign

theorem forall₂_unspelled {tokens others : List Token}
    (h : tokens.map Token.unspelled = others.map Token.unspelled) :
    List.Forall₂ (fun t u => t.unspelled = u.unspelled) tokens others := by
  rwa [← List.forall₂_eq_eq_eq, List.forall₂_map_left_iff, List.forall₂_map_right_iff] at h

end Token

namespace Parser

/-- **Another spelling of a statement reads in the same way.** -/
theorem parse_respelled {tokens others : List Token} {symbols : Symbols} {n : Node}
    (h : (Stream.ofTokens tokens symbols).parse.outcome = .ok n)
    (hsame : tokens.map Token.unspelled = others.map Token.unspelled) :
    (Stream.ofTokens others symbols).parse = (Stream.ofTokens tokens symbols).parse := by
  obtain ⟨houtcome, hnames, hdepth⟩ :=
    parse_renamed Token.matching_unspelled (Token.forall₂_unspelled hsame)
      (List.map_id symbols.names).symm fun _ _ _ _ h => h
  have h' := (houtcome.ok_iff n).2 h
  rw [List.map_id, Grammar.parse_stream h, Grammar.parse_stream h'] at hnames
  have hsymbols : symbols.afterTokens others = symbols.afterTokens tokens := Symbols.ext hnames
  have hstream : (Stream.ofTokens others symbols).parse.stream =
      (Stream.ofTokens tokens symbols).parse.stream := by
    rw [Grammar.parse_stream h, Grammar.parse_stream h', hsymbols]
  calc (Stream.ofTokens others symbols).parse
      = ⟨.ok n, (Stream.ofTokens tokens symbols).parse.stream,
          (Stream.ofTokens tokens symbols).parse.depth⟩ := by rw [← h', ← hstream, ← hdepth]
    _ = (Stream.ofTokens tokens symbols).parse := by rw [← h]

end Parser

end Propositional
