/-
The notes on a chain of rewrites. A chain has one of four answers (`Replies`). With
a new text, and with the diagnostic for a rule that does not apply, go the
descriptions of all mismatches that the steps have recorded (`Replies.notices`). The
diagnostic for a rule that is not defined goes without them: it takes the place of
the outcome in which they were gathered (`notices_go_with_outcomes`).
-/
import Propositional.Proofs.Rewriting.Links
import Propositional.Proofs.Session.History
import Propositional.Proofs.Session.Replies

namespace Propositional.Session

open Nesting (Limit)

variable {limit : Limit} {session : Session} {line : Line} {symbols : Symbols} {target rule : Node}

/-- The mismatches that the steps of a chain have recorded, in order. -/
def recorded (session : Session) (symbols : Symbols) (target rule : Node) : List Mismatch :=
  (Rewrite.steps symbols session.rules session.strict target rule).flatMap (·.outcome.mismatches)

theorem Replies.notices {turn : Turn} (h : Replies limit session line symbols target rule turn) :
    turn.answer = .diagnostic .reading tooDeepMessage ∨
      (∃ name, turn.answer = .diagnostic .rewriting (Fault.undefinedRule name).message ∧
        turn.notes = line.notes) ∨
      ((∃ text, turn.answer = .rewritten text) ∨
          turn.answer = .diagnostic .rewriting Fault.mismatch.message ∨
          turn.answer = .diagnostic .rewriting Fault.unboundAtom.message) ∧
        ∃ notices,
          (recorded session symbols target rule).mapM (Mismatch.describe symbols) = .ok notices ∧
            turn.notes = line.notes ++ notices := by
  cases h with
  | tooDeep => exact .inl rfl
  | undefined => exact .inr (.inl ⟨_, rfl, List.append_nil _⟩)
  | @failed outcome notes fault _ _ hchain hnotes hfault =>
    refine .inr (.inr ⟨.inr ?_, notes, ?_, rfl⟩)
    · rcases Rewrite.unwrap_error hfault with rfl | rfl
      · exact .inl rfl
      · exact .inr rfl
    · rw [recorded, Rewrite.chain_mismatches hchain]
      exact describeMismatches_all hnotes
  | @rewritten outcome notes _ text _ _ hchain hnotes =>
    refine .inr (.inr ⟨.inl ⟨text, rfl⟩, notes, ?_, rfl⟩)
    rw [recorded, Rewrite.chain_mismatches hchain]
    exact describeMismatches_all hnotes

/-- **Notices go with outcomes.** In any session that comes about, let a line be read
as a chain of rewrites. Its answer, unless it is that the line is nested too deeply,
has these notes: first those on the malformed pieces of the line; then, with a new text
and with the diagnostic for a rule that does not match or leaves an atom unbound, the
descriptions of all mismatches that the steps of the chain have recorded, in order;
but nothing more with the diagnostic for a rule that is not defined, whatever the steps
before it have recorded. -/
theorem notices_go_with_outcomes {start : Session} (hstart : start.rules.HoldsFormulas)
    (hsession : ReachableFrom limit start session) {text : String}
    (hread : (Line.ofText text session.previous).read.outcome = .ok (.application target rule)) :
    ∃ turn, session.process text limit = .ok turn ∧
      (turn.answer = .diagnostic .reading tooDeepMessage ∨
        (∃ name, turn.answer = .diagnostic .rewriting (Fault.undefinedRule name).message ∧
          turn.notes = (Line.ofText text session.previous).notes) ∨
        ((∃ shown, turn.answer = .rewritten shown) ∨
            turn.answer = .diagnostic .rewriting Fault.mismatch.message ∨
            turn.answer = .diagnostic .rewriting Fault.unboundAtom.message) ∧
          ∃ notices,
            (recorded session (Line.ofText text session.previous).read.stream.symbols target
                rule).mapM
              (Mismatch.describe (Line.ofText text session.previous).read.stream.symbols) =
                .ok notices ∧
            turn.notes = (Line.ofText text session.previous).notes ++ notices) := by
  obtain ⟨turn, hturn, -⟩ := process_total (hsession.holdsFormulas hstart) limit text
  exact ⟨turn, hturn, (process_replies hread hturn).notices⟩

/-- What `p & q => a & ~b = a => r` is read as: what the last rule is applied to, and that rule. -/
def undefinedChain : Node × Node :=
  (.application (.binary (.atom 0) .conj (.atom 1))
      (.equivalence (.binary (.atom 2) .conj (.neg (.atom 3))) (.atom 2)),
    .ruleName 4)

/-- A malformed piece and a mismatch, and a chain that goes on to its end. -/
theorem notices_go_with_outcomes_permissive :
    RuleStore.HoldsFormulas Session.fresh.rules ∧
      ReachableFrom Nesting.standard Session.fresh Session.fresh ∧
      (Line.ofText "p & $ q => a & ~b = a" Session.fresh.previous).read.outcome =
        .ok undefinedChain.1 ∧
      ∃ turn, Session.fresh.process "p & $ q => a & ~b = a" = .ok turn ∧
        turn.answer = .rewritten "p" ∧
        turn.notes = ["Unexpected character: '$' (at 4)",
          "Expression does not match pattern (expected negation): q"] := by
  have hread : (Line.ofText "p & $ q => a & ~b = a" Session.fresh.previous).read.outcome =
      .ok undefinedChain.1 := rfl
  have hreach : ReachableFrom Nesting.standard Session.fresh Session.fresh := reachable_fresh _
  have hend : (Session.fresh.process "p & $ q => a & ~b = a").toOption.map (·.answer) =
      some (.rewritten "p") := by
    decide +kernel
  obtain ⟨turn, hturn, hanswer⟩ := ok_of_map_toOption hend
  obtain ⟨turn', hturn', hcases⟩ :=
    notices_go_with_outcomes RuleStore.holdsFormulas_empty hreach hread
  obtain rfl : turn = turn' := Except.ok.inj (hturn.symm.trans hturn')
  refine ⟨RuleStore.holdsFormulas_empty, hreach, hread, turn, hturn, hanswer, ?_⟩
  rw [hanswer] at hcases
  simp only [reduceCtorEq, false_and, exists_false, false_or] at hcases
  obtain ⟨-, notices, hnotices, hnotes⟩ := hcases
  cases hnotices
  exact hnotes

/-- The last rule of `p & q => a & ~b = a => r` is not defined, and the mismatch of the
step before it is gone. -/
theorem undefined_rule_drops_notices :
    (Line.ofText "p & q => a & ~b = a => r" Session.fresh.previous).read.outcome =
        .ok (.application undefinedChain.1 undefinedChain.2) ∧
      ((recorded Session.fresh
          (Line.ofText "p & q => a & ~b = a => r"
            Session.fresh.previous).read.stream.symbols undefinedChain.1
          undefinedChain.2).mapM (Mismatch.describe
            (Line.ofText "p & q => a & ~b = a => r"
              Session.fresh.previous).read.stream.symbols)).toOption =
        some ["Expression does not match pattern (expected negation): q"] ∧
      (Session.fresh.process "p & q => a & ~b = a => r").toOption.map
          (fun turn => (turn.answer, turn.notes)) =
        some (.diagnostic .rewriting "Undefined rule used: r", []) :=
  ⟨rfl, by decide +kernel, by decide +kernel⟩

end Propositional.Session
