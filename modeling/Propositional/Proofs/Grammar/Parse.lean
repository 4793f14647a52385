/-
The parser accepts exactly the grammar. A list of tokens is read as a statement
with the tree `n` if and only if the grammar derives `n` from it, where a name
has the index that it has in the table after all names of the list have been
interned (`parse_iff`). Since reading has one outcome, there is one tree. Any
other list fails with a message (`parse_error_message`).
-/
import Propositional.Proofs.Grammar.Halting
import Propositional.Proofs.Grammar.Sound
import Propositional.Proofs.Printing.Text

namespace Propositional.Grammar

open Propositional.Parser

theorem agrees_indexOf (symbols : Symbols) : Agrees symbols.indexOf symbols := fun _ _ => rfl

theorem reads_start {symbols : Symbols} {tokens : List Token} {s : State}
    (h : Shifts (.start .statement symbols) tokens s) : Reads s.symbols.indexOf s tokens := by
  have hstart : Reads s.symbols.indexOf (.start .statement symbols) [] := .enter .statement symbols
  exact hstart.shifts h (agrees_indexOf s.symbols)

theorem parse_stream {tokens : List Token} {symbols : Symbols} {n : Node}
    (h : (Stream.ofTokens tokens symbols).parse.outcome = .ok n) :
    (Stream.ofTokens tokens symbols).parse.stream =
      ⟨none, [], symbols.afterTokens tokens, []⟩ := by
  obtain ⟨s, hrun, hf⟩ := shifts_of_parse h
  rw [(parse_of_shifts hrun hf).2, hrun.symbols]
  rfl

/-- Reading succeeds exactly on statements, with the tree of the statement. -/
theorem parse_iff {tokens : List Token} {symbols : Symbols} {n : Node} :
    (Stream.ofTokens tokens symbols).parse.outcome = .ok n ↔
      Statement (symbols.afterTokens tokens).indexOf tokens n := by
  constructor
  · intro h
    obtain ⟨s, hrun, hf⟩ := shifts_of_parse h
    have hreads := reads_start hrun
    rw [hrun.symbols] at hreads
    exact hreads.finish hf
  · intro h
    obtain ⟨s, hrun, hf, -⟩ := h.reads (agrees_indexOf _)
    exact (parse_of_shifts hrun hf).1

/-! ## Failures -/

theorem shown_text {symbols : Symbols} {before after : List Token} {n : Node} {s : State}
    (hrun : Shifts (.start .statement symbols) (before ++ after) s)
    (hf : Formula s.symbols.indexOf after n) : ∃ text, n.text s.symbols = .ok text := by
  refine Node.text_formula hf.isFormula fun i hi => ?_
  rw [hf.atoms] at hi
  obtain ⟨name, hname, rfl⟩ := List.mem_map.1 hi
  have hmem : name ∈ s.symbols.names := by
    rw [hrun.symbols, Symbols.afterTokens, Symbols.mem_internAll, Token.identifiers_append]
    exact .inr (List.mem_append_right _ hname)
  rw [Symbols.name?_indexOf hmem]
  rfl

theorem message_ok {symbols : Symbols} {failure : Failure}
    (h : ∀ n, failure.shownNode? = some n → ∃ text, n.text symbols = .ok text) :
    ∃ message, failure.message symbols = .ok message := by
  cases failure with
  | notBindable n | notRuleName n =>
    obtain ⟨text, ht⟩ := h n rfl
    simp only [Failure.message, ht]
    exact ⟨_, rfl⟩
  | noOperand | unclosedParen | bindingWithoutEquals | ruleWithoutEquals | trailing =>
    exact ⟨_, rfl⟩

theorem parse_error_message {tokens : List Token} {symbols : Symbols} {failure : Failure}
    (h : (Stream.ofTokens tokens symbols).parse.outcome = .error failure) :
    ∃ message,
      failure.message (Stream.ofTokens tokens symbols).parse.stream.symbols = .ok message := by
  cases parse_ofTokens tokens symbols with
  | input s hrun ho hsymbols =>
    rw [hsymbols]
    refine message_ok fun n hn => ?_
    obtain ⟨before, after, rfl, hf⟩ := (reads_start hrun).shown_of_finish (ho.symm.trans h) hn
    exact shown_text hrun hf
  | fail s before after t failure' _ hrun hstep ho hsymbols =>
    rw [ho] at h
    cases h
    rw [hsymbols]
    refine message_ok fun n hn => ?_
    obtain ⟨before', after', rfl, hf⟩ := (reads_start hrun).shown_of_step hstep hn
    exact shown_text hrun hf
  | trailing s before after t result _ _ _ ho =>
    rw [ho] at h
    cases h
    exact ⟨_, rfl⟩

/-- **The parser accepts exactly the grammar, and answers with the only tree.**
Any tokens are read with the tree `n` if and only if the grammar derives `n`
from them as a statement, atoms being numbered in the order in which their names
first occur. There is at most one such tree. Tokens from which no statement can be
derived are refused with a failure that has a message. -/
theorem reads_exactly_statements (tokens : List Token) :
    (∀ n, (Stream.ofTokens tokens).parse.outcome = .ok n ↔
      Statement (Symbols.empty.afterTokens tokens).indexOf tokens n) ∧
    (∀ n m, Statement (Symbols.empty.afterTokens tokens).indexOf tokens n →
      Statement (Symbols.empty.afterTokens tokens).indexOf tokens m → n = m) ∧
    ((∀ n, ¬ Statement (Symbols.empty.afterTokens tokens).indexOf tokens n) →
      ∃ failure message, (Stream.ofTokens tokens).parse.outcome = .error failure ∧
        failure.message (Stream.ofTokens tokens).parse.stream.symbols = .ok message) := by
  refine ⟨fun n => parse_iff, ?_, ?_⟩
  · intro n m hn hm
    have hread := parse_iff.2 hn
    rw [parse_iff.2 hm] at hread
    exact (Except.ok.inj hread).symm
  · intro hnone
    cases houtcome : (Stream.ofTokens tokens).parse.outcome with
    | ok n => exact absurd (parse_iff.1 houtcome) (hnone n)
    | error failure =>
      obtain ⟨message, hmessage⟩ := parse_error_message houtcome
      exact ⟨failure, message, rfl, hmessage⟩

end Propositional.Grammar
