/-
The names of a statement. The table after some tokens holds, behind the names that were there,
those of the identifiers in the order in which each first occurred (`names_internAll`). The
tokens consumed are those neither held back nor left in the stream, and they may end with one
that was refused; but such a one is no identifier. So the rule holds wherever reading stops
(`interned_by_first_occurrence`). The indices of the tree, from left to right, are those of the
identifiers from first to last.
-/
import Propositional.Proofs.Grammar.Prefix

namespace Propositional

namespace Symbols

variable {s s' : Symbols}

theorem names_internAll (s : Symbols) (names : List String) :
    (s.internAll names).names = s.names ++ (names.filter (· ∉ s.names)).eraseDups := by
  induction names generalizing s with
  | nil => exact (List.append_nil _).symm
  | cons name rest ih =>
    rw [internAll_cons, ih]
    by_cases h : name ∈ s.names
    · rw [intern_known h, List.filter_cons_of_neg (by simpa using h)]
    · have hfresh : ∀ other, (other ∉ s.names ++ [name]) ↔ other ∉ s.names ∧ other ≠ name := by simp
      have hfilter : rest.filter (· ∉ s.names ++ [name]) =
          (rest.filter (· ∉ s.names)).filter (fun other => !other == name) := by
        rw [List.filter_filter]
        refine List.filter_congr fun other _ => ?_
        simp only [hfresh, Bool.decide_and, Bool.and_comm, ne_eq, decide_not]
        rfl
      rw [(intern_new h).2, hfilter, List.filter_cons_of_pos (by simpa using h),
        List.eraseDups_cons, List.append_assoc, List.singleton_append]

theorem name?_eq_some_iff {i : Nat} {name : String} :
    s.name? (i : Nat) = some name ↔ s.index? name = some i := by
  constructor
  · intro h
    have hname : s.names[i]? = some name := h
    obtain ⟨j, hj⟩ := position_isSome (List.mem_of_getElem? hname)
    obtain ⟨hi, -⟩ := List.getElem?_eq_some_iff.1 hname
    have hij : i = j := (List.getElem?_inj hi s.nodup).1 (hname.trans (position_eq_some hj).symm)
    rw [index?, hj, hij]
  · exact fun h => position_eq_some h

theorem index?_of_grows (h : s.Grows s') {name : String} (hname : name ∈ s.names) :
    s'.index? name = s.index? name := by
  obtain ⟨added, hadded⟩ := h
  rw [index?, index?, ← hadded, position_append_of_mem hname]

end Symbols

/-- The indices in a statement, of atoms and of names of rules, from left to right. -/
def Node.indices : Node → List Int
  | atom i | ruleName i => [i]
  | neg x | group x => x.indices
  | binary l _ r | equivalence l r | application l r | binding l r => l.indices ++ r.indices
  | stray _ => []

namespace Grammar

open Propositional.Parser

theorem indices_formula {n : Node} (h : n.IsFormula) : n.indices = n.atoms := by
  induction h with
  | atom i => rfl
  | neg _ ih | group _ ih => exact ih
  | binary op _ _ ihl ihr => rw [Node.indices, ihl, ihr, Node.atoms]

variable {index : String → Int} {tokens : List Token} {n : Node}

theorem Formula.indices (h : Formula index tokens n) :
    n.indices = (Token.identifiers tokens).map index := by
  rw [indices_formula h.isFormula, h.atoms]

theorem Rewrites.indices (h : Rewrites index tokens n) :
    n.indices = (Token.identifiers tokens).map index := by
  induction h with
  | formula h => exact Formula.indices h
  | apply applies equals _ hl hr ih =>
    simp [Node.indices, ih, Formula.indices hl, Formula.indices hr, Token.identifiers_cons]

theorem Statement.indices (h : Statement index tokens n) :
    n.indices = (Token.identifiers tokens).map index := by
  cases h with
  | rewrites h => exact h.indices
  | byName applies name h => simp [Node.indices, h.indices, Token.identifiers_cons]
  | binding name binds equals hl hr =>
    simp [Node.indices, Formula.indices hl, Formula.indices hr, Token.identifiers_cons]

/-- What has been consumed when reading stops, and the table then. -/
theorem Halts.consumed {symbols : Symbols} {reading : Reading}
    (h : Halts symbols (tokens.map .token) reading) :
    ∃ consumed, tokens.map Lexeme.token = consumed.map .token ++
        ((reading.stream.pending.map Lexeme.token).toList ++ reading.stream.rest) ∧
      reading.stream.symbols = symbols.afterTokens consumed ∧
      ((∃ n, reading.outcome = .ok n) → consumed = tokens) := by
  cases h with
  | input s hrun ho hstream =>
    rw [Lexeme.tokens_map_token] at hrun
    rw [hstream]
    exact ⟨tokens, (List.append_nil _).symm, hrun.symbols, fun _ => rfl⟩
  | token s before after t failure pending hlexemes hrun hrefuses ho hpending hstream =>
    obtain ⟨before, later, -, rfl, -⟩ := List.map_eq_append_iff.1 hlexemes
    rw [Lexeme.tokens_map_token] at hrun
    have hfail : (∃ n, reading.outcome = .ok n) → False := by
      rintro ⟨n, hn⟩
      cases ho.symm.trans hn
    rw [hstream, hlexemes]
    rcases hpending with rfl | ⟨rfl, hkind⟩
    · exact ⟨before, rfl, hrun.symbols, fun h => (hfail h).elim⟩
    · refine ⟨before ++ [t], by simp, ?_, fun h => (hfail h).elim⟩
      rw [Symbols.afterTokens_append, Symbols.afterTokens_sign _ hkind]
      exact hrun.symbols

/-- **Interning follows first occurrence.** Wherever reading a statement stops, the tokens fall
apart into those consumed, the one held back, if any, and those left; if it succeeds, all are
consumed. The names then are those there before, in their order, and behind them those of the
identifiers consumed, each new one where it first occurs. No name is there twice, the index of
a name and the name of an index undo each other, and a name that was there when some of the
tokens had been consumed keeps the index that it had then. The tree, if there is one, is derived
from the tokens by giving each identifier its index; so its indices from left to right have the
names of the identifiers from first to last. -/
theorem interned_by_first_occurrence (tokens : List Token) (symbols : Symbols) :
    let reading := (Stream.ofTokens tokens symbols).parse
    let table := reading.stream.symbols
    (∃ consumed, tokens.map Lexeme.token = consumed.map .token ++
          ((reading.stream.pending.map Lexeme.token).toList ++ reading.stream.rest) ∧
        table.names = symbols.names ++
          ((Token.identifiers consumed).filter (· ∉ symbols.names)).eraseDups ∧
        (∀ earlier, earlier <+: consumed → ∀ name ∈ (symbols.afterTokens earlier).names,
          table.index? name = (symbols.afterTokens earlier).index? name) ∧
        ((∃ n, reading.outcome = .ok n) → consumed = tokens)) ∧
      table.names.Nodup ∧
      (∀ (i : Nat) name, table.name? i = some name ↔ table.index? name = some i) ∧
      ∀ n, reading.outcome = .ok n →
        Statement table.indexOf tokens n ∧
          n.indices.map table.name? = (Token.identifiers tokens).map some := by
  intro reading table
  obtain ⟨consumed, hsplit, hsymbols, hall⟩ := (parse_halts (tokens.map .token) symbols).consumed
  refine ⟨⟨consumed, hsplit, ?_, ?_, hall⟩, table.nodup,
    fun i name => Symbols.name?_eq_some_iff, fun n hn => ?_⟩
  · rw [← Symbols.names_internAll]
    exact congrArg Symbols.names hsymbols
  · rintro earlier ⟨later, rfl⟩ name hname
    have hgrows := Symbols.grows_afterTokens (symbols.afterTokens earlier) later
    rw [← Symbols.afterTokens_append, ← hsymbols] at hgrows
    exact Symbols.index?_of_grows hgrows hname
  · have htable : table = symbols.afterTokens tokens := hsymbols.trans (by rw [hall ⟨n, hn⟩])
    have hstatement := parse_iff.1 hn
    rw [← htable] at hstatement
    refine ⟨hstatement, ?_⟩
    rw [hstatement.indices, List.map_map]
    refine List.map_congr_left fun name hname => Symbols.name?_indexOf ?_
    rw [htable, Symbols.afterTokens, Symbols.mem_internAll]
    exact .inr hname

end Grammar

end Propositional
