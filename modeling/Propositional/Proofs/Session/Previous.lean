/-
The line `ans`. The previous text is always that of a formula, so the line reads as
this formula with its parentheses (`Line.ofText_answer`). After a table it reads in
all as the line did that the table answered, and has the same table
(`answer_after_table`). After a chain of rewrites it reads as the result of the
chain (`answer_after_text`). Reading that text or evaluating the formula may go
deeper than rewriting and writing did. The session stays as it was in any case.
-/
import Propositional.Proofs.Printing.Reprint
import Propositional.Proofs.Session.History
import Propositional.Proofs.Session.Rewriting

namespace Propositional

namespace Lexeme

theorem ofSource_answer {previous : String} (h : previous ≠ "") :
    ofSource Token.answer previous = ofSource previous := by
  have hword : Piece.cutAll 0 0 Token.answer.toList = [(0, ⟨Token.answer.toList, .word⟩)] := by
    decide
  rw [ofSource, if_neg h, scan, hword, List.flatMap_singleton, ofPiece, String.ofList_toList]
  exact if_pos rfl

end Lexeme

theorem exists_last_of_filterMap {α β : Type} {f : α → Option β} {xs : List α} {b : β}
    (h : (xs.filterMap f).getLast? = some b) :
    ∃ earlier a later, xs = earlier ++ a :: later ∧ f a = some b ∧ ∀ x ∈ later, f x = none := by
  obtain ⟨bs, hbs⟩ := List.getLast?_eq_some_iff.1 h
  obtain ⟨xs₁, xs₂, rfl, -, hlast⟩ := List.filterMap_eq_append_iff.1 hbs
  obtain ⟨ys, a, later, rfl, -, ha, hlater⟩ := List.filterMap_eq_cons_iff.1 hlast
  exact ⟨xs₁ ++ ys, a, later, by rw [List.append_assoc], ha, List.filterMap_eq_nil_iff.1 hlater⟩

namespace Session

open Nesting (Limit)
open Propositional.Parser

variable {limit : Limit} {session before : Session} {line : Line} {symbols : Symbols}

/-! ## What `ans` reads as -/

/-- After the text of a formula, `ans` is that formula with its parentheses. -/
theorem Line.ofText_answer (hnames : ∀ name ∈ symbols.names, IsName name) {n : Node}
    (hn : n.IsFormula) {previous : String} (htext : n.text symbols = .ok previous)
    (hprevious : previous ≠ "") :
    Line.ofText Token.answer previous = ⟨n.withGroups.tokens symbols, []⟩ := by
  rw [Line.ofText, Lexeme.ofSource_answer hprevious, (Node.lexes_text hnames hn htext).ofSource,
    Lexeme.tokens_map_token, Lexeme.diagnostics_map_token]

theorem Line.read_answer {text recalled previous : String} {n : Node}
    (hread : (Line.ofText text recalled).read.outcome = .ok n) (hn : n.IsFormula)
    (htext : n.text (Line.ofText text recalled).read.stream.symbols = .ok previous)
    (hprevious : previous ≠ "") :
    (Line.ofText Token.answer previous).diagnostics = [] ∧
      (Line.ofText Token.answer previous).read = (Line.ofText text recalled).read := by
  have hgroups : n.withGroups = n := ((Grammar.parse_iff.1 hread).derives hn).withGroups
  rw [Line.ofText_answer (fun name hname => Line.isName hread hname) hn htext hprevious, hgroups]
  exact ⟨rfl, Node.tokens_read hread hn⟩

theorem Line.read_answer_formula (hnames : ∀ name ∈ symbols.names, IsName name) {n : Node}
    (hn : n.IsFormula) {previous : String} (htext : n.text symbols = .ok previous)
    (hprevious : previous ≠ "") :
    (Line.ofText Token.answer previous).diagnostics = [] ∧
      ∃ g, (Line.ofText Token.answer previous).read.outcome = .ok g ∧ g.IsFormula ∧
        g.text (Line.ofText Token.answer previous).read.stream.symbols = .ok previous ∧
        ∀ v : String → Bool,
          g.holdsNamed (Line.ofText Token.answer previous).read.stream.symbols v =
            n.holdsNamed symbols v := by
  obtain ⟨-, hsymbols, hread⟩ := Node.text_parse hnames hn htext .empty
  rw [(Node.lexes_text hnames hn htext).ofSource] at hsymbols hread
  have hgroups := hn.withGroups
  have hknown : ∀ i ∈ n.withGroups.atoms,
      symbols.nameAt i ∈ (Symbols.empty.internAll (n.atoms.map symbols.nameAt)).names := by
    intro i hi
    rw [Node.atoms_withGroups] at hi
    exact Symbols.mem_internAll.2 (.inr (List.mem_map_of_mem hi))
  rw [Line.ofText_answer hnames hn htext hprevious]
  refine ⟨rfl, _, hread, hgroups.subst fun _ _ => .atom _, ?_, fun v => ?_⟩ <;>
    rw [Line.read, Stream.ofTokens, hsymbols]
  · refine Node.text_renumbered hgroups (Node.text_withGroups hn htext) fun i hi => ?_
    obtain ⟨name, hname⟩ := Node.name?_of_text htext (Node.atoms_withGroups n ▸ hi)
    have hat : symbols.nameAt i = name := by rw [Symbols.nameAt, hname, Option.getD_some]
    rw [Symbols.name?_indexOf (hknown i hi), hat, hname]
  · rw [Node.holdsNamed_renumbered hgroups hknown, Node.holdsNamed, Node.holds_withGroups,
      Node.holdsNamed]

/-! ## What `ans` is answered with -/

theorem answer_after_table {text previous : String} {turn : Turn} {t : TruthTable}
    (h : Answers limit before (.ofText text before.previous) turn)
    (hanswer : turn.answer = .table t previous) (hprevious : previous ≠ "")
    (hsession : session.previous = previous) :
    session.process Token.answer limit = .ok ⟨.table t previous, [], session, []⟩ := by
  cases h with
  | @table n t' text' hread hn hwithin ht htext =>
    cases hanswer
    obtain ⟨hclean, hsame⟩ := Line.read_answer hread hn htext hprevious
    rw [← hsession] at hclean hsame htext ⊢
    rw [Line.overruns, ← hsame] at hwithin
    rw [← hsame] at hread ht htext
    rw [process, answer_formula hread hn hwithin ht htext, Line.notes, Line.events, hclean]
    rfl
  | declined | bound | rewritten => cases hanswer

/-- After the text of a formula, `ans` has the table of a formula with this text and
the same truth values, unless this goes beyond the limit. -/
theorem answer_after_text (limit : Limit) (hnames : ∀ name ∈ symbols.names, IsName name) {n : Node}
    (hn : n.IsFormula) (htext : n.text symbols = .ok session.previous)
    (hprevious : session.previous ≠ "") :
    ∃ turn g, session.process Token.answer limit = .ok turn ∧ turn.notes = [] ∧
      turn.session = session ∧
      (Line.ofText Token.answer session.previous).read.outcome = .ok g ∧
      if (Line.ofText Token.answer session.previous).overruns limit g then
        turn.answer = .diagnostic .reading tooDeepMessage
      else
        ∃ t, turn.answer = .table t session.previous ∧
          ∀ v : String → Bool, t.formula.holdsNamed t.symbols v = n.holdsNamed symbols v := by
  obtain ⟨hclean, g, hread, hg, htext', hvalue⟩ :=
    Line.read_answer_formula hnames hn htext hprevious
  have hnotes : (Line.ofText Token.answer session.previous).notes = [] := by
    rw [Line.notes, hclean, List.map_nil]
  cases hover : (Line.ofText Token.answer session.previous).overruns limit g with
  | true =>
    refine ⟨_, g, answer_overrun hread hg hover, ?_, rfl, hread, ?_⟩
    · rw [tooDeep, decline, hnotes, List.append_nil]
    · rw [if_pos hover]
      rfl
  | false =>
    obtain ⟨t, ht, hformula, -⟩ := TruthTable.ofFormula_tabulates hg
      (Line.ofText Token.answer session.previous).read.stream.symbols
    refine ⟨_, g, answer_formula hread hg hover ht htext', hnotes, rfl, hread, ?_⟩
    rw [if_neg (Bool.eq_false_iff.1 hover)]
    refine ⟨t, rfl, fun v => ?_⟩
    rw [hformula, TruthTable.ofFormula_symbols ht, hvalue]

theorem History.exists_last_text {start : Session} {entries : List Entry}
    (h : History limit start entries session) (hrules : start.rules.HoldsFormulas)
    (hstart : start.previous = "") (hprevious : session.previous ≠ "") :
    ∃ earlier before text last later,
      entries = earlier ++ .answered before text last :: later ∧
        last.answer.text? = some session.previous ∧ ∀ e ∈ later, e.text? = none := by
  have htold := (h.told hrules).previous
  rw [hstart] at htold
  cases hlast : (entries.filterMap Entry.text?).getLast? with
  | none =>
    rw [hlast] at htold
    exact absurd htold hprevious
  | some previous =>
    rw [hlast, Option.getD_some] at htold
    obtain ⟨earlier, e, later, hentries, he, hlater⟩ := exists_last_of_filterMap hlast
    cases e with
    | answered before text last =>
      exact ⟨earlier, before, text, last, later, hentries, htold ▸ he, hlater⟩
    | toggledDisplay | setStrict => cases he

/-- **The line `ans` repeats what the session has come to.** Start with no previous
text and with rules that are equivalences of formulas, do anything, and let there be
a previous text then. The line `ans` is answered without notes and leaves the whole
session as it is. The last text has come from a line `text`, given to a session
`before`. If this line was answered with a table, `ans` has the same table: formula,
names, atoms and all columns. If it was answered with the text of what a chain of
rewrites came to, `ans` has the table of a formula with that text and the truth
values of the result of the chain, whatever truth values are given to names; but
where reading that text, evaluating its formula or writing it again goes beyond the
limit, `ans` is refused as nested too deeply. -/
theorem answer_repeats_previous {start : Session} {actions : List Action}
    (hstart : start.previous = "") (hrules : start.rules.HoldsFormulas)
    (hrun : Session.after limit start actions = .ok session) (hprevious : session.previous ≠ "") :
    ∃ earlier before text last later turn,
      History limit start (earlier ++ .answered before text last :: later) session ∧
      (earlier ++ .answered before text last :: later).map Entry.action = actions ∧
      (∀ e ∈ later, e.text? = none) ∧
      session.process Token.answer limit = .ok turn ∧ turn.notes = [] ∧ turn.session = session ∧
      ((∃ t, last.answer = .table t session.previous ∧ turn.answer = .table t session.previous) ∨
        (last.answer = .rewritten session.previous ∧
          ∃ target rule outcome result g,
            (Line.ofText text before.previous).read.outcome = .ok (.application target rule) ∧
            Rewrite.chain (Line.ofText text before.previous).read.stream.symbols before.rules
              before.strict target rule = .ok outcome ∧
            outcome.status = .ok result ∧
            result.text (Line.ofText text before.previous).read.stream.symbols =
              .ok session.previous ∧
            (Line.ofText Token.answer session.previous).read.outcome = .ok g ∧
            if (Line.ofText Token.answer session.previous).overruns limit g then
              turn.answer = .diagnostic .reading tooDeepMessage
            else
              ∃ t, turn.answer = .table t session.previous ∧
                ∀ v : String → Bool, t.formula.holdsNamed t.symbols v =
                  result.holdsNamed (Line.ofText text before.previous).read.stream.symbols v)) := by
  obtain ⟨entries, s, hhistory, rfl⟩ := history_exists hrules limit actions
  obtain rfl : s = session := Except.ok.inj (hhistory.after.symm.trans hrun)
  obtain ⟨earlier, before, text, last, later, rfl, htext, hlater⟩ :=
    hhistory.exists_last_text hrules hstart hprevious
  obtain ⟨hbefore, hlast⟩ := hhistory.process hrules (List.mem_append_right _ List.mem_cons_self)
  have hanswers := answers_of_process hbefore hlast
  cases hanswer : last.answer with
  | table t previous =>
    rw [hanswer] at htext
    cases htext
    exact ⟨earlier, before, text, last, later, _, hhistory, rfl, hlater,
      answer_after_table hanswers hanswer hprevious rfl, rfl, rfl, .inl ⟨t, hanswer, rfl⟩⟩
  | rewritten previous =>
    rw [hanswer] at htext
    cases htext
    cases hanswers with
    | @rewritten target rule result outcome _ notes events hread hchain hstatus hresult htext =>
      cases hanswer
      have hnames : ∀ name ∈ (Line.ofText text before.previous).read.stream.symbols.names,
          IsName name := fun name hname => Line.isName hread hname
      obtain ⟨turn, g, hturn, hnotes, hsession, hg, hcases⟩ :=
        answer_after_text limit hnames hresult htext hprevious
      exact ⟨earlier, before, text, _, later, turn, hhistory, rfl, hlater, hturn, hnotes, hsession,
        .inr ⟨rfl, target, rule, outcome, result, g, hread, hchain, hstatus, htext, hg, hcases⟩⟩
    | declined | bound | table => cases hanswer
  | bound | diagnostic =>
    rw [hanswer] at htext
    cases htext

/-- A table and a rewriting of it, over an atom with the name `ans`, then what changes no text. -/
def recallingActions : List Action :=
  [.line "ans and q", .line "ans => a & b = b -> a", .line "p =>", .toggleDisplay]

theorem answer_repeats_rewritten :
    fresh.previous = "" ∧ fresh.rules.HoldsFormulas ∧
      ∃ session, Session.after Nesting.standard fresh recallingActions = .ok session ∧
        session.previous = "q -> ans" ∧
        ∃ turn, session.process Token.answer = .ok turn ∧ turn.notes = [] ∧
          turn.session = session := by
  have hend : (Session.after Nesting.standard fresh recallingActions).toOption.map (·.previous) =
      some "q -> ans" := by
    decide +kernel
  obtain ⟨session, hrun, hprevious⟩ := ok_of_map_toOption hend
  have hnonempty : session.previous ≠ "" := by
    rw [hprevious]
    decide
  obtain ⟨-, -, -, -, -, turn, -, -, -, hturn, hnotes, hsession, -⟩ :=
    answer_repeats_previous rfl RuleStore.holdsFormulas_empty hrun hnonempty
  exact ⟨rfl, RuleStore.holdsFormulas_empty, session, hrun, hprevious, turn, hturn, hnotes, hsession⟩

/-! ## Beyond the limit -/

/-- Characters in so many pairs of parentheses. -/
def parenthesised (pairs : Nat) (word : List Char) : List Char :=
  List.replicate pairs '(' ++ word ++ List.replicate pairs ')'

/-- Two rules, each of which puts 64 pairs of parentheses around a formula. -/
def wrappingLine : List Char :=
  "p => a = ".toList ++ parenthesised 64 ['a'] ++ " => a = ".toList ++ parenthesised 64 ['a']

/-- The session after these rules have been applied to an atom. -/
def wrapped : Session := { fresh with previous := String.ofList (parenthesised 128 ['p']) }

theorem Line.ofText_ofList (source : List Char) :
    Line.ofText (String.ofList source) "" =
      ⟨Lexeme.tokens (Lexeme.lexFrom 0 source), Lexeme.diagnostics (Lexeme.lexFrom 0 source)⟩ := by
  rw [Line.ofText, Lexeme.ofSource_eq, String.toList_ofList]

theorem reachable_line {text : String} {turn : Turn} (h : fresh.process text limit = .ok turn) :
    Reachable limit turn.session := by
  refine ⟨[.line text], ?_⟩
  rw [Session.after, List.foldlM_cons, act, h]
  rfl

theorem reachable_wrapped : Reachable Nesting.standard wrapped := by
  -- Computing goes from the characters on: taking a long text apart takes longer than all the rest.
  have hend : (fresh.process (String.ofList wrappingLine)).toOption.map (·.session) =
      some wrapped := by
    rw [process, fresh, Line.ofText_ofList]
    decide +kernel
  obtain ⟨turn, hturn, hsession⟩ := ok_of_map_toOption hend
  exact hsession ▸ reachable_line hturn

/-- A rewritten text may be nested too deeply to be read again. -/
theorem wrapped_text_is_refused :
    Reachable Nesting.standard wrapped ∧ wrapped.previous ≠ "" ∧
      ∃ turn, wrapped.process Token.answer = .ok turn ∧
        turn.answer = .diagnostic .reading tooDeepMessage := by
  have hprevious : wrapped.previous ≠ "" := by
    rw [wrapped, Ne, String.ofList_eq_empty_iff]
    exact List.cons_ne_nil _ _
  have hanswer : (wrapped.process Token.answer).toOption.map (·.answer) =
      some (.diagnostic .reading tooDeepMessage) := by
    rw [process, Line.ofText, Lexeme.ofSource_answer hprevious, ← Line.ofText, wrapped,
      Line.ofText_ofList]
    decide +kernel
  exact ⟨reachable_wrapped, hprevious, ok_of_map_toOption hanswer⟩

/-- A rewritten text may be read and written within a limit, and its formula not be evaluated
there: a part that occurs again is compared with itself. -/
example :
    (process fresh "p => a = ~~~a & ~~~a" (some ⟨12, false⟩)).toOption.map (·.session) =
        some { fresh with previous := "~~~p & ~~~p" } ∧
      (process { fresh with previous := "~~~p & ~~~p" } Token.answer
          (some ⟨12, false⟩)).toOption.map (·.answer) =
        some (.diagnostic .reading tooDeepMessage) := by
  decide +kernel

end Session

end Propositional
