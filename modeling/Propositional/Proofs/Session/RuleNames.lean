/-
Rules by their names. A stored rule has been bound by a line of the history
(`History.exists_bound`), and what a line binds is a word that is no keyword
(`isName_of_reachable`). Such a word is read as a name again in every later line; only `ans`
may stand for something else by then. So a formula with the name behind it calls for the
rule that is stored under this name, and for no other (`stored_rule_is_addressable`).
-/
import Propositional.Proofs.Session.NamedRules
import Propositional.Proofs.Session.Previous

namespace Propositional.Session

open Nesting (Limit)

variable {limit : Limit} {start before session : Session} {entries : List Entry} {line : Line}
  {name text : String} {stored target rule : Node} {turn : Turn} {outcome : Rewrite}

/-! ## Where stored rules come from -/

theorem History.exists_bound (h : History limit start entries session)
    (hstart : start.rules = .empty) (hstored : session.rules.get? name = some stored) :
    ∃ before text turn, .answered before text turn ∈ entries ∧
      (Entry.answered before text turn).rule? = some (name, stored) := by
  have hrules : start.rules.HoldsFormulas := hstart ▸ RuleStore.holdsFormulas_empty
  rw [(h.told hrules).rules, OrderedMap.get?_insertAll, hstart, OrderedMap.get?_empty,
    Option.or_none, List.lookup_eq_some_iff] at hstored
  obtain ⟨later, earlier, hbound, -⟩ := hstored
  have hmem : (name, stored) ∈ (entries.filterMap Entry.rule?).reverse := by
    rw [hbound]
    exact List.mem_append_right _ List.mem_cons_self
  obtain ⟨e, he, hrule⟩ := List.mem_filterMap.1 (List.mem_reverse.1 hmem)
  cases e with
  | answered before text turn => exact ⟨before, text, turn, he, hrule⟩
  | toggledDisplay | setStrict => cases hrule

theorem isName_of_bound (h : Answers limit before (.ofText text before.previous) turn)
    (hbound : (Entry.answered before text turn).rule? = some (name, stored)) : IsName name := by
  cases h with
  | bound hread hname =>
    rw [Entry.rule?_answered rfl hread] at hbound
    cases hbound
    exact Line.isName hread (Symbols.mem_of_name? hname)
  | declined | rewritten | table => cases hbound

theorem isName_of_reachable (h : Reachable limit session)
    (hstored : session.rules.get? name = some stored) : IsName name := by
  have hfresh : fresh.rules.HoldsFormulas := RuleStore.holdsFormulas_empty
  obtain ⟨actions, hrun⟩ := h
  obtain ⟨entries, hhistory, -⟩ := history_of_after hfresh hrun
  obtain ⟨before, text, turn, hmem, hbound⟩ := hhistory.exists_bound rfl hstored
  obtain ⟨hbefore, hprocess⟩ := hhistory.process hfresh hmem
  exact isName_of_bound (answers_of_process hbefore hprocess) hbound

/-! ## Lines that end with a name -/

/-- A word that stands for itself after a previous text. -/
def StandsForItself (word previous : String) : Prop :=
  word ≠ Token.answer ∨ previous = "" ∨ previous = Token.answer

theorem tokens_of_self {previous : String} (hname : IsName name) (h : StandsForItself name previous) :
    Lexeme.tokens (Lexeme.ofSource name previous) = [⟨.identifier, name⟩] := by
  by_cases hanswer : name = Token.answer
  · rcases h with hne | rfl | rfl
    · exact absurd hanswer hne
    · exact Lexeme.tokens_name hname
    · rw [hanswer, Lexeme.ofSource_answer (by decide), ← hanswer, Lexeme.tokens_name hname]
  · rw [(Lexeme.isPlain_name hname hanswer).tokens_ofSource, Lexeme.tokens_name hname]

theorem Line.ofText_named {previous : String} (hname : IsName name) (h : StandsForItself name previous)
    (text : String) :
    (Line.ofText (text ++ " => " ++ name) previous).tokens =
      (Line.ofText text previous).tokens ++ [⟨.applies, "=>"⟩, ⟨.identifier, name⟩] := by
  have hspaced : " => ".toList = ' ' :: ("=>".toList ++ [' ']) := rfl
  have hjoined := Lexeme.tokens_joined hspaced (by decide) (fun _ => rfl) text previous name
  rwa [tokens_of_self hname h] at hjoined

/-! ## Answers to chains -/

/-- A line that is read as a chain with this outcome stays within the limit. -/
structure Fits (limit : Limit) (session : Session) (line : Line) (target rule : Node)
    (outcome : Rewrite) : Prop where
  read : limit.exceededBy line.read.depth = false
  within : Within limit line.read.stream.symbols session.rules session.strict target rule outcome

/-- Within the limit a chain is answered as its outcome calls for, and beyond it is refused. -/
theorem answer_of_outcome (hread : line.read.outcome = .ok (.application target rule))
    (hchain : Rewrite.chain line.read.stream.symbols session.rules session.strict target rule =
      .ok outcome) (h : session.answer limit line = .ok turn) :
    (Fits limit session line target rule outcome →
        answerTo line.read.stream.symbols outcome = .ok turn.answer) ∧
      (¬ Fits limit session line target rule outcome →
        turn.answer = .diagnostic .reading tooDeepMessage) := by
  constructor
  · intro hfits
    rw [answer, if_neg (Bool.eq_false_iff.1 hfits.read), hread] at h
    exact onApplication_within hfits.within h
  · intro hover
    by_cases hanswer : turn.answer = .diagnostic .reading tooDeepMessage
    · exact hanswer
    · have hwithin := ((answer_replies hread h).within hanswer hchain).1
      exact absurd ⟨within_of_answer h hanswer, hwithin⟩ hover

/-! ## Stored rules -/

/-- **Stored rules are called for by their names.** In a session that has come about from a fresh
one, let a rule be stored under a name. If this is `ans`, let there be no previous text, or
let `ans` be this text itself. A formula with the name applied to it is read as just that.
The line is answered as the outcome of one step by the stored rule calls for; only where
this goes beyond the limit it is refused as nested too deeply, and there is no other
reason to refuse it as unreadable. -/
theorem stored_rule_is_addressable (hreach : Reachable limit session)
    (hstored : session.rules.get? name = some stored) (hself : StandsForItself name session.previous)
    {formula : Node} (hread : (Line.ofText text session.previous).read.outcome = .ok formula)
    (hformula : formula.IsFormula)
    (hline : line = .ofText (text ++ " => " ++ name) session.previous) :
    ∃ i lhs rhs outcome turn, stored = .equivalence lhs rhs ∧
      line.read.outcome = .ok (.application formula (.ruleName i)) ∧
      line.read.stream.symbols.name? i = some name ∧
      Rewrite.step session.strict lhs rhs formula = .ok outcome ∧
      session.process (text ++ " => " ++ name) limit = .ok turn ∧
      (Fits limit session line formula (.ruleName i) outcome →
        answerTo line.read.stream.symbols outcome = .ok turn.answer) ∧
      (¬ Fits limit session line formula (.ruleName i) outcome →
        turn.answer = .diagnostic .reading tooDeepMessage) ∧
      ∀ message, turn.answer = .diagnostic .reading message → message = tooDeepMessage := by
  have hrules : session.rules.HoldsFormulas := hreach.holdsFormulas RuleStore.holdsFormulas_empty
  have hname := isName_of_reachable hreach hstored
  obtain ⟨turn, hturn, -⟩ := process_total hrules limit (text ++ " => " ++ name)
  have hanswer : session.answer limit line = .ok turn := hline ▸ hturn
  -- The line is read as the formula with the name applied to it, and the name is found.
  have htokens := Line.ofText_named hname hself text
  rw [← hline] at htokens
  have happlied : line.read.outcome =
      .ok (.application formula (.ruleName (line.symbols.indexOf name))) := by
    rw [Line.read, Line.symbols, htokens]
    exact Grammar.parse_applied_name hread (.formula hformula) "=>" name
  have hsymbols : line.read.stream.symbols = line.symbols := Line.read_symbols happlied
  have hmem : name ∈ line.symbols.names :=
    Grammar.mem_afterTokens (by simp [htokens, Token.identifiers_cons])
  have hresolve := resolve_name hmem hstored
  cases stored with
  | equivalence lhs rhs =>
    obtain ⟨hlhs, hrhs⟩ := hrules name _ hstored
    obtain ⟨outcome, hstep, -⟩ := Rewrite.step_over session.strict hlhs hrhs hformula
    have hchain : Rewrite.chain line.read.stream.symbols session.rules session.strict formula
        (.ruleName (line.symbols.indexOf name)) = .ok outcome := by
      rw [hsymbols, Rewrite.chain_byRule hformula, Rewrite.byRule_eq hresolve, hstep]
    obtain ⟨hwithin, hbeyond⟩ := answer_of_outcome happlied hchain hanswer
    refine ⟨_, lhs, rhs, outcome, turn, rfl, happlied, ?_, hstep, hturn, hwithin, hbeyond, ?_⟩
    · rw [hsymbols, Symbols.name?_indexOf hmem]
    · intro message hmessage
      by_cases hfits : Fits limit session line formula (.ruleName (line.symbols.indexOf name)) outcome
      · exact absurd hmessage (answerTo_ne_reading (hwithin hfits) message)
      · rw [hbeyond hfits] at hmessage
        cases hmessage
        rfl
  | _ => exact absurd (hrules name _ hstored) id

/-- A rule that swaps, and a conjunction that `ans` stands for. -/
def recalling : Session :=
  ⟨"p & q", .ofList [("swap", .equivalence (.binary (.atom 1) .conj (.atom 2))
    (.binary (.atom 2) .conj (.atom 1)))], .bits, false⟩

/-- The formula is recalled, and the name is applied to it. -/
theorem stored_rule_is_addressable_recalled :
    Reachable Nesting.standard recalling ∧ recalling.rules.contains "swap" ∧
      StandsForItself "swap" recalling.previous ∧
      ∃ i outcome turn,
        (Line.ofText ("ans" ++ " => " ++ "swap") recalling.previous).read.outcome =
          .ok (.application (.binary (.atom 0) .conj (.atom 1)) (.ruleName i)) ∧
        (Line.ofText ("ans" ++ " => " ++ "swap") recalling.previous).read.stream.symbols.name? i =
          some "swap" ∧
        Rewrite.step recalling.strict (.binary (.atom 1) .conj (.atom 2))
          (.binary (.atom 2) .conj (.atom 1)) (.binary (.atom 0) .conj (.atom 1)) = .ok outcome ∧
        recalling.process ("ans" ++ " => " ++ "swap") = .ok turn ∧
        turn.answer = .rewritten "q & p" := by
  have hrun : (Session.after Nesting.standard fresh
      [.line "swap := a & b = b & a", .line "p & q"]).toOption.map id = some recalling := by
    decide +kernel
  obtain ⟨session, hafter, rfl⟩ := ok_of_map_toOption hrun
  have hreach : Reachable Nesting.standard recalling := ⟨_, hafter⟩
  have hself : StandsForItself "swap" recalling.previous := .inl (by decide)
  have hread : (Line.ofText "ans" recalling.previous).read.outcome =
      .ok (.binary (.atom 0) .conj (.atom 1)) := rfl
  obtain ⟨i, lhs, rhs, outcome, turn, hstored, hline, hname, hstep, hturn, -⟩ :=
    stored_rule_is_addressable hreach rfl hself hread (by decide) rfl
  cases hstored
  have hshown : (recalling.process ("ans" ++ " => " ++ "swap")).toOption.map (·.answer) =
      some (.rewritten "q & p") := by decide +kernel
  obtain ⟨turn', hturn', hanswer⟩ := ok_of_map_toOption hshown
  obtain rfl : turn' = turn := Except.ok.inj (hturn'.symm.trans hturn)
  exact ⟨hreach, by decide, hself, i, outcome, turn', hline, hname, hstep, hturn, hanswer⟩

/-! ## Rules that are out of reach -/

/-- A rule under `ans`, another one under `q`, and the previous text `q`. -/
def shadowed : Session :=
  ⟨"q", .ofList [("ans", .equivalence (.atom 1) (.neg (.atom 1))),
    ("q", .equivalence (.atom 1) (.binary (.atom 1) .conj (.atom 1)))], .bits, false⟩

/-- Characters with so many negations before them. -/
def negated (times : Nat) (word : List Char) : List Char := List.replicate times '~' ++ word

/-- A rule that puts 250 negations before a formula. -/
def negating : Session :=
  ⟨"", .ofList [("r", .equivalence (.atom 1) (Nat.repeat Node.neg 250 (.atom 1)))], .bits, false⟩

theorem reachable_shadowed : Reachable Nesting.standard shadowed := by
  have hrun : (Session.after Nesting.standard fresh
      [.line "ans := a = ~a", .line "q := a = a & a", .line "q"]).toOption.map id =
        some shadowed := by
    decide +kernel
  obtain ⟨session, hafter, rfl⟩ := ok_of_map_toOption hrun
  exact ⟨_, hafter⟩

theorem reachable_negating : Reachable Nesting.standard negating := by
  have hend : (fresh.process (String.ofList ("r := a = ".toList ++ negated 250 ['a']))).toOption.map
      (·.session) = some negating := by
    rw [process, fresh, Line.ofText_ofList]
    decide +kernel
  obtain ⟨turn, hturn, hsession⟩ := ok_of_map_toOption hend
  exact hsession ▸ reachable_line hturn

/-- Where `ans` stands for another name, the rule of this name is applied and not the one stored
under `ans`; and a rule can make of a formula what is nested too deeply to be shown. -/
theorem stored_rule_is_out_of_reach :
    (Reachable Nesting.standard shadowed ∧
      shadowed.rules.get? Token.answer = some (.equivalence (.atom 1) (.neg (.atom 1))) ∧
      (Line.ofText "p" shadowed.previous).read.outcome = .ok (.atom 0) ∧
      (Line.ofText "p => ans" shadowed.previous).read.outcome =
        .ok (.application (.atom 0) (.ruleName 1)) ∧
      (Line.ofText "p => ans" shadowed.previous).read.stream.symbols.name? 1 = some "q" ∧
      ∃ turn, shadowed.process "p => ans" = .ok turn ∧ turn.answer = .rewritten "p & p") ∧
    (Reachable Nesting.standard negating ∧ negating.rules.contains "r" ∧
      (Line.ofText (String.ofList (negated 400 ['p'])) negating.previous).read.outcome.toOption =
        some (Nat.repeat Node.neg 400 (.atom 0)) ∧
      ∃ turn, negating.process (String.ofList (negated 400 ['p']) ++ " => " ++ "r") = .ok turn ∧
        turn.answer = .diagnostic .reading tooDeepMessage) := by
  have hother : (shadowed.process "p => ans").toOption.map (·.answer) =
      some (.rewritten "p & p") := by
    decide +kernel
  have hformula : (Line.ofText (String.ofList (negated 400 ['p'])) "").read.outcome.toOption =
      some (Nat.repeat Node.neg 400 (.atom 0)) := by
    rw [Line.ofText_ofList]
    decide +kernel
  have htext : String.ofList (negated 400 ['p']) ++ " => " ++ "r" =
      String.ofList (negated 400 ['p'] ++ " => r".toList) := by
    rw [String.ofList_append, String.append_assoc]
    rfl
  have hrefused : (negating.process (String.ofList (negated 400 ['p']) ++ " => " ++ "r")).toOption.map
      (·.answer) = some (.diagnostic .reading tooDeepMessage) := by
    rw [htext, process, negating, Line.ofText_ofList]
    decide +kernel
  exact ⟨⟨reachable_shadowed, rfl, rfl, rfl, rfl, ok_of_map_toOption hother⟩,
    reachable_negating, by decide, hformula, ok_of_map_toOption hrefused⟩

end Propositional.Session
