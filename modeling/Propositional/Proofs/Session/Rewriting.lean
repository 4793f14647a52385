/-
What a session answers to a chain of rewrites, from text to text. The line is
read into a chain over a formula (`Grammar.Statement.head`), strict rewriting
keeps the truth values of that formula (`Rewrite.chain_keeps`), and the text of
the result reads back as the result (`Node.text_parse`). Each of the three has
indices of its own for atoms; what they have in common is the names.
-/
import Propositional.Proofs.Printing.RoundTrip
import Propositional.Proofs.Rewriting.Chain
import Propositional.Proofs.Session.Lines
import Propositional.Proofs.Session.Replies
import Propositional.Session.History

namespace Propositional

open Propositional.Parser

/-- The truth value of a formula over the names of a table, once each name has one. -/
def Node.holdsNamed (symbols : Symbols) (v : String → Bool) (n : Node) : Bool :=
  n.holds fun i => v (symbols.nameAt i)

theorem Node.holdsNamed_renumbered {symbols table : Symbols} {n : Node} (hn : n.IsFormula)
    (htable : ∀ i ∈ n.atoms, symbols.nameAt i ∈ table.names) (v : String → Bool) :
    (n.subst fun i => .atom (table.indexOf (symbols.nameAt i))).holdsNamed table v =
      n.holdsNamed symbols v := by
  rw [holdsNamed, holds_subst _ _ hn]
  refine holds_congr fun i hi => ?_
  rw [holds_atom, Symbols.nameAt_indexOf (htable i hi)]

namespace Session

open Nesting (Limit)

theorem process_rewritten {limit : Limit} {session : Session} {line text : String}
    {target rule : Node} {turn : Turn}
    (hread : (Line.ofText line session.previous).read.outcome = .ok (.application target rule))
    (h : session.process line limit = .ok turn) (hanswer : turn.answer = .rewritten text) :
    ∃ outcome result,
      Rewrite.chain (Line.ofText line session.previous).read.stream.symbols session.rules
          session.strict target rule = .ok outcome ∧
        outcome.status = .ok result ∧
        result.text (Line.ofText line session.previous).read.stream.symbols = .ok text := by
  cases process_replies hread h with
  | rewritten _ _ hchain _ hresult _ htext =>
    cases hanswer
    exact ⟨_, _, hchain, Rewrite.unwrap_ok.1 hresult, htext⟩
  | tooDeep | undefined | failed => cases hanswer

/-- **Strict rewriting is sound from text to text.** In any session with strict
matching all of whose stored rules are equivalences, let a line be read as a
chain whose inline rules are equivalences. If it is answered with a rewritten
text, then this text has no malformed pieces and reads back, with a fresh symbol
table and no previous text, as a formula. Whatever truth values are given to
names, it has the same truth value as the formula at the head of the chain. -/
theorem rewritten_text_is_equivalent {limit : Limit} {session : Session} {line text : String}
    {target rule : Node} {turn : Turn} (hstrict : session.strict = true)
    (hstored : ∀ name stored, session.rules.get? name = some stored → stored.IsSoundRule)
    (hread : (Line.ofText line session.previous).read.outcome = .ok (.application target rule))
    (hinline : ∀ lhs rhs, Node.equivalence lhs rhs ∈ (Rewrite.links target rule).2 →
      (Node.equivalence lhs rhs).IsSoundRule)
    (hturn : session.process line limit = .ok turn) (hanswer : turn.answer = .rewritten text) :
    (Rewrite.links target rule).1.IsFormula ∧
      Lexeme.diagnostics (Lexeme.ofSource text) = [] ∧
      ∃ g, (Stream.ofLexemes (Lexeme.ofSource text)).parse.outcome = .ok g ∧ g.IsFormula ∧
        ∀ v : String → Bool,
          g.holdsNamed (Stream.ofLexemes (Lexeme.ofSource text)).parse.stream.symbols v =
            (Rewrite.links target rule).1.holdsNamed
              (Line.ofText line session.previous).read.stream.symbols v := by
  have hhead := (Grammar.parse_iff.1 hread).head
  obtain ⟨outcome, result, hchain, hstatus, htext⟩ := process_rewritten hread hturn hanswer
  rw [hstrict] at hchain
  have hkept := Rewrite.chain_keeps hchain hstatus hstored hinline hhead
  obtain ⟨hclean, hsymbols, hback⟩ :=
    Node.text_parse (fun name hname => Line.isName hread hname) hkept.formula htext .empty
  have hgroups := hkept.formula.withGroups
  refine ⟨hhead, hclean, _, hback, hgroups.subst fun _ _ => .atom _, fun v => ?_⟩
  rw [hsymbols, Node.holdsNamed_renumbered hgroups]
  · rw [Node.holdsNamed, Node.holds_withGroups, hkept.value, Node.holdsNamed]
  · intro i hi
    rw [Node.atoms_withGroups] at hi
    exact Symbols.mem_internAll.2 (.inr (List.mem_map_of_mem hi))

/-- A session with strict matching and a rule that swaps the sides of a disjunction. -/
def swapping : Session :=
  ⟨"", .ofList [("swap", .equivalence (.binary (.atom 1) .disj (.atom 2))
    (.binary (.atom 2) .disj (.atom 1)))], .bits, true⟩

/-- What `p -> q -> r => a -> b = ~a | b => swap` is read as: what the last rule is
applied to, and that rule. -/
def swappedLine : Node × Node :=
  (.application (.binary (.binary (.atom 0) .cond (.atom 1)) .cond (.atom 2))
      (.equivalence (.binary (.atom 3) .cond (.atom 4)) (.binary (.neg (.atom 3)) .disj (.atom 4))),
    .ruleName 5)

/-- A chain with an inline rule and a stored one, in which the printer has to add parentheses. -/
theorem swapped_text_is_equivalent :
    Reachable Nesting.standard swapping ∧ swapping.strict = true ∧
      (∀ name stored, swapping.rules.get? name = some stored → stored.IsSoundRule) ∧
      (Line.ofText "p -> q -> r => a -> b = ~a | b => swap" swapping.previous).read.outcome =
        .ok (.application swappedLine.1 swappedLine.2) ∧
      (∀ lhs rhs, Node.equivalence lhs rhs ∈ (Rewrite.links swappedLine.1 swappedLine.2).2 →
        (Node.equivalence lhs rhs).IsSoundRule) ∧
      (∃ turn, swapping.process "p -> q -> r => a -> b = ~a | b => swap" = .ok turn ∧
        turn.answer = .rewritten "r | ~(p -> q)") ∧
      ∃ g, (Stream.ofLexemes (Lexeme.ofSource "r | ~(p -> q)")).parse.outcome = .ok g ∧
        ∀ v : String → Bool,
          g.holdsNamed (Stream.ofLexemes (Lexeme.ofSource "r | ~(p -> q)")).parse.stream.symbols v =
            (!(!v "p" || v "q") || v "r") := by
  have hreach : Reachable Nesting.standard swapping :=
    ⟨[.setStrict true, .line "swap := a | b = b | a"], rfl⟩
  have hstored : ∀ name stored, swapping.rules.get? name = some stored → stored.IsSoundRule := by
    intro name stored hget
    cases List.mem_singleton.1 (OrderedMap.mem_entries_of_get? hget)
    exact fun v => Bool.or_comm (v 1) (v 2)
  have hread : (Line.ofText "p -> q -> r => a -> b = ~a | b => swap" "").read.outcome =
      .ok (.application swappedLine.1 swappedLine.2) := rfl
  have hinline : ∀ lhs rhs,
      Node.equivalence lhs rhs ∈ (Rewrite.links swappedLine.1 swappedLine.2).2 →
        (Node.equivalence lhs rhs).IsSoundRule := by
    intro lhs rhs hmem
    rcases List.mem_cons.1 hmem with heq | hmem
    · cases heq
      exact fun v => rfl
    · cases List.mem_singleton.1 hmem
  have hshown : (swapping.process "p -> q -> r => a -> b = ~a | b => swap").toOption.map (·.answer) =
      some (.rewritten "r | ~(p -> q)") := by decide +kernel
  cases hturn : swapping.process "p -> q -> r => a -> b = ~a | b => swap" with
  | error fault =>
    rw [hturn] at hshown
    cases hshown
  | ok turn =>
    rw [hturn] at hshown
    have hanswer : turn.answer = .rewritten "r | ~(p -> q)" := Option.some.inj hshown
    obtain ⟨-, -, g, hg, -, hvalue⟩ :=
      rewritten_text_is_equivalent rfl hstored hread hinline hturn hanswer
    exact ⟨hreach, rfl, hstored, hread, hinline, ⟨turn, rfl, hanswer⟩, g, hg, hvalue⟩

end Session

end Propositional
