/-
Reading on demand. A statement can be read from a scanner, which is asked for a token only when
one is due (`Scanner.parse`), or from the list of all tokens. Both come to the same end
(`lazy_agrees_with_eager`), since what a scanner has still to give is the source that the
machine runs on (`Scanner.parse_eq`). They differ in the diagnostics that have been met: reading
that succeeds asks until the text ends, and so meets all; reading that fails asks up to the
token that offends, which may stand inside the previous text, and meets no diagnostic behind it.
-/
import Propositional.Proofs.Grammar.Prefix
import Propositional.Proofs.Lexing.Scanner

namespace Propositional

open Propositional.Parser

namespace Parser

theorem pull_rest (lexemes : List Lexeme) :
    match Stream.pull lexemes with
    | (none, rest, _) => rest = []
    | (some _, rest, _) => rest.length < lexemes.length := by
  induction lexemes with
  | nil => rfl
  | cons lexeme lexemes ih =>
    cases lexeme with
    | token u => exact Nat.lt_succ_self _
    | malformed d =>
      rw [Stream.pull]
      generalize Stream.pull lexemes = pulled at ih
      obtain ⟨_ | t, rest, met⟩ := pulled
      · exact ih
      · exact Nat.lt_succ_of_lt ih

theorem run_pull {s : State} (hs : s.context.isPlace) (diagnostics : List Diagnostic)
    (lexemes : List Lexeme) :
    run s diagnostics lexemes =
      match Stream.pull lexemes with
      | (none, rest, met) => ⟨s.finish, ⟨none, rest, s.symbols, diagnostics ++ met⟩, 0⟩
      | (some t, rest, met) => run s (diagnostics ++ met) (.token t :: rest) := by
  induction lexemes generalizing diagnostics with
  | nil => simp only [run, Stream.pull, List.append_nil]
  | cons lexeme rest ih =>
    cases lexeme with
    | token t => simp only [Stream.pull, List.append_nil]
    | malformed d =>
      rw [run, State.settled?_eq_none hs, Stream.pull]
      dsimp only
      rw [ih]
      obtain ⟨_ | t, later, met⟩ := Stream.pull rest <;>
        simp only [List.append_assoc, List.singleton_append]

end Parser

namespace Scanner

/-- How reading from a scanner ended: the tree or the reason for having none, a token looked at
but not taken, where the scanner stands, the names interned and the diagnostics met. -/
structure Result where
  outcome : Except Failure Node
  pending : Option Token
  scanner : Scanner
  symbols : Symbols
  diagnostics : List Diagnostic

/-- What is left to be read. -/
def Result.stream (r : Result) : Stream :=
  ⟨r.pending, r.scanner.lexemes, r.symbols, r.diagnostics⟩

theorem next_shorter {s after : Scanner} {t : Token} {met : List Diagnostic}
    (h : s.next = (some t, met, after)) : after.lexemes.length < s.lexemes.length := by
  have hrest := pull_rest s.lexemes
  rwa [next_eq_pull, h] at hrest

/-- Runs the machine on a scanner, which is asked for one token after the other. -/
def run (state : State) (diagnostics : List Diagnostic) (s : Scanner) : Result :=
  match _h : s.next with
  | (none, met, last) => ⟨state.finish, none, last, state.symbols, diagnostics ++ met⟩
  | (some t, met, after) =>
    match state.step t with
    | .shift next => run next (diagnostics ++ met) after
    | .done value => ⟨.ok value, some t, after, state.symbols, diagnostics ++ met⟩
    | .fail failure =>
      let pending := if state.value.isSome then some t else none
      ⟨.error failure, pending, after, state.symbols, diagnostics ++ met⟩
  termination_by s.lexemes.length
  decreasing_by exact next_shorter ‹_›

/-- Reads a statement that takes up all that the scanner has still to give. -/
def parse (symbols : Symbols) (s : Scanner) : Result :=
  let result := s.run (.start .statement symbols) []
  match result.outcome, result.pending with
  | .error _, _ => result
  | .ok _, some t => { result with outcome := .error (.trailing t) }
  | .ok _, none =>
    match result.scanner.next with
    | (none, met, last) => { result with scanner := last, diagnostics := result.diagnostics ++ met }
    | (some t, met, last) =>
      { result with
        outcome := .error (.trailing t), pending := some t, scanner := last
        diagnostics := result.diagnostics ++ met }

theorem run_eq {state : State} (hs : state.context.isPlace) (diagnostics : List Diagnostic)
    (s : Scanner) :
    (s.run state diagnostics).outcome = (Parser.run state diagnostics s.lexemes).outcome ∧
      (s.run state diagnostics).stream = (Parser.run state diagnostics s.lexemes).stream := by
  fun_induction run state diagnostics s with
  | case1 state diagnostics s met last hnext =>
    rw [run_pull hs, next_eq_pull, hnext]
    exact ⟨rfl, rfl⟩
  | case2 state diagnostics s t met after hnext next hstep ih =>
    rw [run_pull hs, next_eq_pull, hnext]
    simp only [Parser.run, State.settled?_eq_none hs, hstep]
    exact ih (State.step_isPlace hs hstep)
  | case3 state diagnostics s t met after hnext value hstep
  | case4 state diagnostics s t met after hnext failure hstep =>
    rw [run_pull hs, next_eq_pull, hnext]
    simp only [Parser.run, State.settled?_eq_none hs, hstep, true_and]
    rfl

/-- **To read from a scanner is to read what it has still to give.** -/
theorem parse_eq (symbols : Symbols) (s : Scanner) :
    (s.parse symbols).outcome = (Stream.ofLexemes s.lexemes symbols).parse.outcome ∧
      (s.parse symbols).stream = (Stream.ofLexemes s.lexemes symbols).parse.stream := by
  have hplace : (State.start .statement symbols).context.isPlace := rfl
  obtain ⟨houtcome, hstream⟩ := run_eq hplace [] s
  have hread : (Stream.ofLexemes s.lexemes symbols).read .statement =
      Parser.run (.start .statement symbols) [] s.lexemes := rfl
  rw [← hread] at houtcome hstream
  rw [parse, Stream.parse]
  generalize s.run (.start .statement symbols) [] = result at houtcome hstream
  generalize (Stream.ofLexemes s.lexemes symbols).read .statement = reading at houtcome hstream
  obtain ⟨outcome, stream, depth⟩ := reading
  obtain ⟨_, pending, scanner, table, diagnostics⟩ := result
  cases houtcome
  cases hstream
  cases outcome with
  | error failure => exact ⟨rfl, rfl⟩
  | ok n =>
    cases pending with
    | some t => exact ⟨rfl, rfl⟩
    | none =>
      simp only [Result.stream, Stream.peek, next_eq_pull]
      obtain ⟨_ | t, met, last⟩ := scanner.next <;> exact ⟨rfl, rfl⟩

end Scanner

namespace Grammar

variable {symbols : Symbols}

theorem Refuses.not_isBeginning {before : List Token} {s : State} {t : Token} {failure : Failure}
    (h : Refuses s t failure) (hrun : Shifts (.start .statement symbols) before s) :
    ¬ IsBeginning symbols (before ++ [t]) := by
  rintro ⟨more, n, hread⟩
  rw [List.append_assoc, List.singleton_append, (h.parse hrun more).1] at hread
  cases hread

theorem rest_of_shifts {tokens : List Token} {s : State}
    (h : Shifts (.start .statement symbols) tokens s) :
    (Stream.ofTokens tokens symbols).parse.stream.rest = [] := by
  cases hfinish : s.finish with
  | ok n => rw [(parse_of_shifts h hfinish).2]
  | error failure => exact (parse_of_stuck h hfinish).2

/-- Where reading from a scanner stops, seen from the list of all its tokens: at a token that
offends, or at the end of the text. These are the answers that the scanner has given by then. -/
inductive StopsAfter (symbols : Symbols) (tokens : List Token) (lazy : Scanner.Result)
    (eager : Reading) : List (Option Token) → Prop
  | offender (before after : List Token) (t : Token) (failure : Failure) :
      tokens = before ++ t :: after → lazy.outcome = .error failure →
      IsBeginning symbols before → ¬ IsBeginning symbols (before ++ [t]) →
      eager.stream.rest = after.map .token →
      StopsAfter symbols tokens lazy eager ((before ++ [t]).map some)
  | text : lazy.scanner.lexemes = [] → IsBeginning symbols tokens → eager.stream.rest = [] →
      StopsAfter symbols tokens lazy eager (tokens.map some ++ [none])

theorem met_when_stopped (symbols : Symbols) (scanner : Scanner) :
    let tokens := Lexeme.tokens scanner.lexemes
    let diagnostics := Lexeme.diagnostics scanner.lexemes
    let lazy := scanner.parse symbols
    (∀ n, lazy.outcome = .ok n → lazy.diagnostics = diagnostics) ∧
      lazy.diagnostics <+: diagnostics ∧
      ∃ answers last,
        StopsAfter symbols tokens lazy (Stream.ofTokens tokens symbols).parse answers ∧
        scanner.asked answers.length = (answers, lazy.diagnostics, last) ∧
        last.lexemes = lazy.scanner.lexemes := by
  intro tokens diagnostics lazy
  obtain ⟨houtcome, hstream⟩ := Scanner.parse_eq symbols scanner
  cases parse_halts scanner.lexemes symbols with
  | input s hrun ho hread =>
    have hmet : lazy.diagnostics = diagnostics := congrArg Stream.diagnostics (hstream.trans hread)
    have hrest : lazy.scanner.lexemes = [] := congrArg Stream.rest (hstream.trans hread)
    obtain ⟨last, hasked, hlast⟩ := scanner.asked_all
    refine ⟨fun _ _ => hmet, hmet ▸ List.prefix_rfl, _, last,
      .text hrest (shifts_isBeginning hrun) (rest_of_shifts hrun), ?_, hlast.trans hrest.symm⟩
    rw [List.length_append, List.length_map, hmet]
    exact hasked
  | token s before after t failure pending hsplit hrun hrefuses ho hpending hread =>
    have hmet : lazy.diagnostics = Lexeme.diagnostics before :=
      congrArg Stream.diagnostics (hstream.trans hread)
    have hrest : lazy.scanner.lexemes = after := congrArg Stream.rest (hstream.trans hread)
    have hfailed : lazy.outcome = .error failure := houtcome.trans ho
    have htokens : tokens = Lexeme.tokens before ++ t :: Lexeme.tokens after :=
      (congrArg Lexeme.tokens hsplit).trans (Lexeme.tokens_append before _)
    have hdiagnostics : diagnostics = Lexeme.diagnostics before ++ Lexeme.diagnostics after :=
      (congrArg Lexeme.diagnostics hsplit).trans (Lexeme.diagnostics_append before _)
    have heager := (hrefuses.parse hrun (Lexeme.tokens after)).2.2
    rw [← htokens] at heager
    obtain ⟨last, hasked, hlast⟩ := Scanner.asked_before hsplit
    refine ⟨fun n hn => ?_, ?_, _, last, .offender _ _ t failure htokens hfailed
      (shifts_isBeginning hrun) (hrefuses.not_isBeginning hrun) heager, ?_,
      hlast.trans hrest.symm⟩
    · cases hfailed.symm.trans hn
    · rw [hmet, hdiagnostics]
      exact List.prefix_append _ _
    · rw [List.length_map, List.length_append, hmet]
      exact hasked

/-- **Lazy and eager reading agree.** For any text, previous text and table of names, the tokens
are the answers of a scanner that is asked until the text ends. Reading a statement from the
scanner comes to the same tree, or to the same failure with the same message, and to the same
names as reading the list of these tokens. The diagnostics met are those that the scanner meets
when it is asked for the tokens up to where reading stops, and so the first ones of the text;
and all of them if reading succeeds. -/
theorem lazy_agrees_with_eager (source previous : String) (symbols : Symbols) :
    let scanner := Scanner.start source previous
    let tokens := Lexeme.tokens (Lexeme.ofSource source previous)
    let diagnostics := Lexeme.diagnostics (Lexeme.ofSource source previous)
    let lazy := scanner.parse symbols
    let eager := (Stream.ofTokens tokens symbols).parse
    (∃ last, scanner.asked (tokens.length + 1) = (tokens.map some ++ [none], diagnostics, last)) ∧
      lazy.outcome = eager.outcome ∧ lazy.symbols = eager.stream.symbols ∧
      (∀ failure, lazy.outcome = .error failure →
        ∃ message, failure.message lazy.symbols = .ok message) ∧
      (∀ n, lazy.outcome = .ok n → lazy.diagnostics = diagnostics) ∧
      lazy.diagnostics <+: diagnostics ∧
      ∃ answers last, StopsAfter symbols tokens lazy eager answers ∧
        scanner.asked answers.length = (answers, lazy.diagnostics, last) ∧
        last.lexemes = lazy.scanner.lexemes := by
  intro scanner tokens diagnostics lazy eager
  have hlexemes : scanner.lexemes = Lexeme.ofSource source previous :=
    Scanner.lexemes_start source previous
  obtain ⟨houtcome, hstream⟩ := Scanner.parse_eq symbols scanner
  obtain ⟨heager, htable, -⟩ := parse_ofLexemes (Lexeme.ofSource source previous) symbols
  rw [← hlexemes] at heager htable
  have hsame : lazy.outcome = eager.outcome := houtcome.trans heager
  have hnames : lazy.symbols = eager.stream.symbols :=
    (congrArg Stream.symbols hstream).trans htable
  obtain ⟨last, hall, -⟩ := scanner.asked_all
  refine ⟨⟨last, hall⟩, hsame, hnames, fun failure hfailure => ?_, met_when_stopped symbols scanner⟩
  rw [hnames]
  exact parse_error_message (hsame.symm.trans hfailure)

/-- Reading stops at `q`, inside the previous text; nothing behind it has been met. -/
example : ((Scanner.start "ans & !" "p $ q ?").parse .empty).diagnostics = [⟨2, .unknown '$'⟩] ∧
    Lexeme.diagnostics (Lexeme.ofSource "ans & !" "p $ q ?") =
      [⟨2, .unknown '$'⟩, ⟨6, .unknown '?'⟩, ⟨6, .unknown '!'⟩] := by
  have hstream := (Scanner.parse_eq .empty (.start "ans & !" "p $ q ?")).2
  rw [Scanner.lexemes_start] at hstream
  exact ⟨(congrArg Stream.diagnostics hstream).trans (by decide), by decide⟩

end Grammar

end Propositional
