/-
Chains and single steps. A chain of two rules hands the result of the first to the second
as a tree. The line `ans` hands it on as a text, in which the printer's parentheses are
groups (`goesOn_recalled`). So the second rule meets the result in one case and the result
with its groups in the other. If the printer has added no parentheses, both come to the same
(`chain_agrees_with_steps`), unless one of them is refused. The line with `ans` may be:
reading a text goes deeper than writing it, and parts that are one in the chain are read
one by one. The chain is refused in its place only where the first rule, which is applied
below the second one in it, has no level to spare (`within_stepwise`).
-/
import Propositional.Proofs.Rewriting.Marks
import Propositional.Proofs.Session.NamedRules
import Propositional.Proofs.Session.Previous

namespace Propositional

open Nesting (Limit)
open Propositional.Parser

namespace Session

/-- A rule as a text: without malformed pieces and without the word `ans`, and with a formula
on each side of its `=`. -/
structure IsRuleText (text : String) : Prop where
  plain : Lexeme.IsPlain text
  sides : ∃ left equals right lhs rhs,
    Lexeme.tokens (Lexeme.ofSource text) = left ++ ⟨.equals, equals⟩ :: right ∧
      (Stream.ofTokens left).parse.outcome = .ok lhs ∧ lhs.IsFormula ∧
      (Stream.ofTokens right).parse.outcome = .ok rhs ∧ rhs.IsFormula

variable {limit : Limit} {session : Session} {before line line' : Line} {target lhs rhs : Node}
  {left right : List Token} {equals : String}

theorem IsRuleText.goesOn {rule : String} (hrule : IsRuleText rule) :
    ∃ left equals right,
      Lexeme.tokens (Lexeme.ofSource rule) = left ++ ⟨.equals, equals⟩ :: right ∧
        ∀ text previous target, (Line.ofText text previous).read.outcome = .ok target →
          target.IsInline → ∃ lhs rhs,
            GoesOn (.ofText text previous) (.ofText (text ++ " => " ++ rule) previous) target
              left equals right lhs rhs := by
  obtain ⟨left, equals, right, lhs, rhs, hsplit, hleft, hlhs, hright, hrhs⟩ := hrule.sides
  refine ⟨left, equals, right, hsplit, fun text previous target hread hinline => ?_⟩
  have hl := (Grammar.parse_iff.1 hleft).derives hlhs
  have hr := (Grammar.parse_iff.1 hright).derives hrhs
  obtain ⟨htokens, -⟩ := Line.ofText_applied text previous hrule.plain
  rw [hsplit] at htokens
  exact ⟨_, _, hinline, hread, htokens, hl.in_table fun _ => Grammar.mem_afterTokens,
    hr.in_table fun _ => Grammar.mem_afterTokens⟩

/-! ## The result, recalled -/

variable {symbols s : Symbols} {result : Node} {text rule : String}

/-- The line `ans` after the text of a result: it has the printer's parentheses. -/
def recalledLine (symbols : Symbols) (result : Node) : Line :=
  ⟨result.withGroups.tokens symbols, []⟩

/-- The number that an atom of the result has in this line. -/
def recalledAs (symbols : Symbols) (result : Node) : Int → Int :=
  symbols.renumbering (recalledLine symbols result).symbols

/-- Recalled, a result is read with the printer's parentheses as groups, and goes on with the
rule of another line. -/
theorem goesOn_recalled (hnames : ∀ name ∈ symbols.names, IsName name) (hresult : result.IsFormula)
    (htext : result.text symbols = .ok text) (hrule : Lexeme.IsPlain rule)
    (hsplit : Lexeme.tokens (Lexeme.ofSource rule) = left ++ ⟨.equals, equals⟩ :: right)
    (hline : GoesOn before line target left equals right lhs rhs)
    (hline' : line' = .ofText (Token.answer ++ " => " ++ rule) text) :
    GoesOn (recalledLine symbols result) line'
      (result.withGroups.renumbered (recalledAs symbols result)) left equals right
      (lhs.renumbered (line.symbols.renumbering line'.symbols))
      (rhs.renumbered (line.symbols.renumbering line'.symbols)) := by
  have hanswer : Line.ofText Token.answer text = recalledLine symbols result :=
    Line.ofText_answer hnames hresult htext (Node.text_ne_empty hnames hresult htext)
  obtain ⟨htokens, -⟩ := Line.ofText_applied Token.answer text hrule
  rw [hsplit, ← hline', hanswer] at htokens
  have hread : (recalledLine symbols result).read.outcome =
      .ok (result.withGroups.renumbered (recalledAs symbols result)) :=
    Node.tokens_parse symbols hresult
  exact goesOn_of_table hread (.formula (hresult.withGroups.renumbered _)) htokens hline.lhs
    hline.rhs hline.mem_symbols

theorem mem_recalled (symbols : Symbols) {i : Int} (hi : i ∈ result.atoms) :
    symbols.nameAt i ∈ Token.identifiers (result.withGroups.tokens symbols) := by
  rw [Node.identifiers_tokens, Node.atoms_withGroups]
  exact List.mem_map_of_mem hi

theorem distinctOn_recalled
    (hnames : ∀ i ∈ result.atoms, ∃ name ∈ symbols.names, symbols.indexOf name = i) :
    DistinctOn (recalledAs symbols result) result.withGroups.atoms := by
  refine Grammar.distinctOn_names fun i hi => ?_
  rw [Node.atoms_withGroups] at hi
  obtain ⟨name, hname, rfl⟩ := hnames i hi
  have hrecalled := mem_recalled symbols hi
  rw [Symbols.nameAt_indexOf hname] at hrecalled
  exact ⟨name, hname, Grammar.mem_afterTokens hrecalled, rfl⟩

theorem keepsNames_recalled {symbols' : Symbols} {more : List Token}
    (hline : line'.tokens = (recalledLine symbols result).tokens ++ more)
    (hnames : ∀ i ∈ result.atoms, ∃ name,
      (name ∈ symbols.names ∧ symbols.indexOf name = i) ∧
        name ∈ symbols'.names ∧ symbols'.indexOf name = i) :
    KeepsNames symbols' line'.symbols (recalledAs symbols result) result.withGroups := by
  intro i hi
  rw [Node.atoms_withGroups] at hi
  obtain ⟨name, ⟨hname, rfl⟩, hname', hindex'⟩ := hnames i hi
  have hrecalled := mem_recalled symbols hi
  rw [Symbols.nameAt_indexOf hname] at hrecalled
  refine ⟨name, ?_, ?_⟩
  · rw [← hindex', Symbols.name?_indexOf hname']
  · rw [recalledAs, Symbols.renumbering_indexOf hname, Line.symbols, hline]
    exact Grammar.name?_before hrecalled _

theorem answerTo_renumbered {symbols' : Symbols} {ρ : Int → Int} {expr : Node}
    (hkeeps : KeepsNames symbols symbols' ρ expr) {outcome : Rewrite}
    (hover : Rewrite.Over expr outcome) (π : Int → Int) :
    answerTo symbols' (outcome.renumbered π ρ) = answerTo symbols outcome := by
  obtain ⟨status, mismatches⟩ := outcome
  cases status with
  | mismatch | unbound => rfl
  | ok result =>
    obtain ⟨text, htext, htext'⟩ := text_of_keepsNames hkeeps (hover.result rfl)
    simp only [answerTo, Rewrite.unwrap, Rewrite.renumbered, RewriteStatus.renumbered, htext, htext']

/-! ## Two steps -/

variable {rules : RuleStore} {strict : Bool} {n lhs₁ rhs₁ lhs₂ rhs₂ : Node} {first second : Rewrite}
  {π ρ : Int → Int}

theorem chain_two (symbols : Symbols) (rules : RuleStore) (hn : n.IsFormula)
    (hfirst : Rewrite.step strict lhs₁ rhs₁ n = .ok first) (hresult : first.status = .ok result)
    (hsecond : Rewrite.step strict lhs₂ rhs₂ result = .ok second) :
    Rewrite.chain symbols rules strict (.application n (.equivalence lhs₁ rhs₁))
        (.equivalence lhs₂ rhs₂) =
      .ok { second with mismatches := first.mismatches ++ second.mismatches } := by
  rw [Rewrite.chain_application, Rewrite.chain_formula hn, hfirst]
  simp only [bind, Except.bind]
  rw [Rewrite.followedBy_ok hresult, Rewrite.byRule_eq rfl, hsecond]
  rfl

/-- A chain of two rules stays within the limit if both steps do, the first one with a level to
spare and the second one on the result with other numbers. -/
theorem within_stepwise {symbols₁ symbols₂ : Symbols} (symbols : Symbols) (hn : n.IsFormula)
    (hlhs₁ : lhs₁.IsFormula) (hrhs₁ : rhs₁.IsFormula) (hlhs₂ : lhs₂.IsFormula)
    (hfirst : Within limit symbols₁ rules strict n (.equivalence lhs₁ rhs₁) first)
    (hspare : (limit.below 1).bind
      (Rewrite.overrun · symbols₁ rules strict n (.equivalence lhs₁ rhs₁)) = none)
    (hresult : first.status = .ok result)
    (hsecond : Rewrite.step strict lhs₂ rhs₂ result = .ok second)
    (hπ : DistinctOn π (lhs₂.atoms ++ rhs₂.atoms)) (hρ : DistinctOn ρ result.atoms)
    (hstepped : Within limit symbols₂ rules strict (result.renumbered ρ)
      (.equivalence (lhs₂.renumbered π) (rhs₂.renumbered π)) (second.renumbered π ρ)) :
    Within limit symbols rules strict (.application n (.equivalence lhs₁ rhs₁))
      (.equivalence lhs₂ rhs₂)
      { second with mismatches := first.mismatches ++ second.mismatches } := by
  have hstep : Rewrite.step strict lhs₁ rhs₁ n = .ok first := by
    rw [← hfirst.chain, Rewrite.chain_formula hn]
  refine ⟨chain_two symbols rules hn hstep hresult hsecond, ?_, fun m hm => ?_,
    fun shown hshown => ?_⟩
  · cases limit with
    | none => rfl
    | some bound =>
      have hnone := hstepped.overrun
      rw [Option.bind_some] at hnone ⊢
      rw [← Option.not_isSome_iff_eq_none]
      intro hover
      have hstepwise : (Rewrite.overrun bound symbols₂ rules strict (result.renumbered ρ)
          (.equivalence (lhs₂.renumbered π) (rhs₂.renumbered π))).isSome :=
        Rewrite.overrun_stepwise hn hlhs₁ hrhs₁ hstep hresult hspare hlhs₂ hπ hρ hover
      rw [hnone] at hstepwise
      cases hstepwise
  · rcases List.mem_append.1 hm with hm | hm
    · exact hfirst.found m hm
    · have hfound := hstepped.found _ (List.mem_map_of_mem hm)
      rwa [Mismatch.renumbered, Node.refusesText_renumbered] at hfound
  · have hstatus : (second.renumbered π ρ).status = .ok (shown.renumbered ρ) := by
      rw [Rewrite.renumbered, hshown]
      rfl
    have hfits := hstepped.result _ hstatus
    rwa [Node.refusesText_renumbered] at hfits

theorem answerTo_rewritten {outcome : Rewrite}
    (h : answerTo symbols outcome = .ok (.rewritten text)) :
    ∃ result, outcome.status = .ok result ∧ result.text symbols = .ok text := by
  rw [answerTo] at h
  split at h
  · cases h
  · next result hresult =>
    obtain ⟨shown, hshown, h⟩ := bind_eq_ok h
    cases h
    exact ⟨result, Rewrite.unwrap_ok.1 hresult, hshown⟩

theorem GoesOn.answered {outcome : Rewrite} {turn : Turn}
    (h : GoesOn before line target left equals right lhs rhs)
    (hturn : session.answer limit line = .ok turn)
    (hanswer : turn.answer ≠ .diagnostic .reading tooDeepMessage)
    (hchain : Rewrite.chain line.symbols session.rules session.strict target
      (.equivalence lhs rhs) = .ok outcome) :
    Within limit line.symbols session.rules session.strict target (.equivalence lhs rhs) outcome ∧
      answerTo line.symbols outcome = .ok turn.answer ∧
      ∀ text, turn.answer = .rewritten text →
        turn.session = { session with previous := text } := by
  have hreplies := answer_replies h.read hturn
  rw [Line.read_symbols h.read] at hreplies
  obtain ⟨hwithin, hanswered⟩ := hreplies.within hanswer hchain
  exact ⟨hwithin, hanswered, fun text htext => hreplies.session_eq htext⟩

/-- A line with one rule, a line that goes on with a second one, and a line in which the second
one is applied to the recalled result of the first. -/
structure TwoSteps (strict : Bool) (n lhs₁ rhs₁ lhs₂ rhs₂ result : Node) (first : Rewrite)
    (line₁ line₂ line₃ : Line) : Prop where
  formula : n.IsFormula
  step : Rewrite.step strict lhs₁ rhs₁ n = .ok first
  status : first.status = .ok result
  one : ∃ before left equals right, GoesOn before line₁ n left equals right lhs₁ rhs₁
  two : ∃ left equals right,
    GoesOn line₁ line₂ (.application n (.equivalence lhs₁ rhs₁)) left equals right lhs₂ rhs₂ ∧
      GoesOn (recalledLine line₁.symbols result) line₃
        (result.withGroups.renumbered (recalledAs line₁.symbols result)) left equals right
        (lhs₂.renumbered (line₂.symbols.renumbering line₃.symbols))
        (rhs₂.renumbered (line₂.symbols.renumbering line₃.symbols))

variable {line₁ line₂ line₃ : Line}

namespace TwoSteps

theorem result_over (h : TwoSteps strict n lhs₁ rhs₁ lhs₂ rhs₂ result first line₁ line₂ line₃) :
    n.Over result := by
  obtain ⟨_, _, _, _, hone⟩ := h.one
  obtain ⟨outcome, hstep, hover⟩ :=
    Rewrite.step_over strict hone.lhs.isFormula hone.rhs.isFormula h.formula
  obtain rfl := Except.ok.inj (h.step.symm.trans hstep)
  exact hover.result h.status

theorem names (h : TwoSteps strict n lhs₁ rhs₁ lhs₂ rhs₂ result first line₁ line₂ line₃) :
    ∀ i ∈ result.atoms, ∃ name,
      (name ∈ line₁.symbols.names ∧ line₁.symbols.indexOf name = i) ∧
        name ∈ line₂.symbols.names ∧ line₂.symbols.indexOf name = i := by
  obtain ⟨before, _, _, _, hone⟩ := h.one
  obtain ⟨_, _, _, htwo, -⟩ := h.two
  intro i hi
  have hhead : i ∈ (Rewrite.head n).atoms := by
    rw [Rewrite.head_formula h.formula]
    exact h.result_over.atoms i hi
  obtain ⟨name, hlines⟩ := Line.head_names hone.begun (.formula h.formula) i hhead
  have htokens := htwo.tokens
  rw [hone.tokens, List.append_assoc] at htokens
  exact ⟨name, hlines line₁ _ hone.tokens, hlines line₂ _ htokens⟩

theorem keepsNames (h : TwoSteps strict n lhs₁ rhs₁ lhs₂ rhs₂ result first line₁ line₂ line₃) :
    KeepsNames line₂.symbols line₃.symbols (recalledAs line₁.symbols result) result.withGroups := by
  obtain ⟨_, _, _, -, hthree⟩ := h.two
  exact keepsNames_recalled hthree.tokens h.names

theorem distinct_result
    (h : TwoSteps strict n lhs₁ rhs₁ lhs₂ rhs₂ result first line₁ line₂ line₃) :
    DistinctOn (recalledAs line₁.symbols result) result.withGroups.atoms :=
  distinctOn_recalled fun i hi =>
    let ⟨name, hname, _⟩ := h.names i hi
    ⟨name, hname⟩

theorem distinct_rule (h : TwoSteps strict n lhs₁ rhs₁ lhs₂ rhs₂ result first line₁ line₂ line₃) :
    DistinctOn (line₂.symbols.renumbering line₃.symbols)
      (lhs₂.atoms ++ rhs₂.atoms) := by
  obtain ⟨_, _, _, htwo, hthree⟩ := h.two
  exact distinctOn_rule htwo.lhs htwo.rhs htwo.mem_symbols hthree.mem_symbols

theorem chained (h : TwoSteps session.strict n lhs₁ rhs₁ lhs₂ rhs₂ result first line₁ line₂ line₃)
    (hsecond : Rewrite.step session.strict lhs₂ rhs₂ result = .ok second) {turn : Turn}
    (hturn : session.answer limit line₂ = .ok turn)
    (hanswer : turn.answer ≠ .diagnostic .reading tooDeepMessage) :
    answerTo line₂.symbols second = .ok turn.answer := by
  obtain ⟨_, _, _, htwo, -⟩ := h.two
  have hchain := chain_two line₂.symbols session.rules h.formula h.step h.status hsecond
  exact (htwo.answered hturn hanswer hchain).2.1

theorem recalled (h : TwoSteps strict n lhs₁ rhs₁ lhs₂ rhs₂ result first line₁ line₂ line₃)
    (hsecond : Rewrite.step strict lhs₂ rhs₂ result.withGroups = .ok second) (rules : RuleStore) :
    Rewrite.Over result.withGroups second ∧
      Rewrite.chain line₃.symbols rules strict
          (result.withGroups.renumbered (recalledAs line₁.symbols result))
          (.equivalence
            (lhs₂.renumbered (line₂.symbols.renumbering line₃.symbols))
            (rhs₂.renumbered (line₂.symbols.renumbering line₃.symbols))) =
        .ok (second.renumbered (line₂.symbols.renumbering line₃.symbols)
          (recalledAs line₁.symbols result)) := by
  obtain ⟨_, _, _, htwo, -⟩ := h.two
  have hgroups := h.result_over.formula.withGroups
  obtain ⟨second', hsecond', hover, hrenumbered⟩ := Rewrite.step_renumbered strict
    htwo.lhs.isFormula htwo.rhs.isFormula hgroups h.distinct_rule h.distinct_result
  obtain rfl := Except.ok.inj (hsecond.symm.trans hsecond')
  rw [Rewrite.chain_formula (hgroups.renumbered _)]
  exact ⟨hover, hrenumbered⟩

theorem stepped (h : TwoSteps session.strict n lhs₁ rhs₁ lhs₂ rhs₂ result first line₁ line₂ line₃)
    (hsecond : Rewrite.step session.strict lhs₂ rhs₂ result.withGroups = .ok second) {turn : Turn}
    (hturn : session.answer limit line₃ = .ok turn)
    (hanswer : turn.answer ≠ .diagnostic .reading tooDeepMessage) :
    answerTo line₂.symbols second = .ok turn.answer := by
  obtain ⟨_, _, _, -, hthree⟩ := h.two
  obtain ⟨hover, hchain⟩ := h.recalled hsecond session.rules
  have hanswered := (hthree.answered hturn hanswer hchain).2.1
  rwa [answerTo_renumbered h.keepsNames hover] at hanswered

theorem spare (h : TwoSteps session.strict n lhs₁ rhs₁ lhs₂ rhs₂ result first line₁ line₂ line₃)
    {lowered : Turn} (hlowered : session.answer limit line₁ = .ok lowered)
    (hanswer : lowered.answer ≠ .diagnostic .reading tooDeepMessage) :
    limit.bind (Rewrite.overrun · line₁.symbols session.rules session.strict n
      (.equivalence lhs₁ rhs₁)) = none := by
  obtain ⟨_, _, _, _, hone⟩ := h.one
  have hchain : Rewrite.chain line₁.symbols session.rules session.strict n
      (.equivalence lhs₁ rhs₁) = .ok first := by
    rw [Rewrite.chain_formula h.formula, h.step]
  exact (hone.answered hlowered hanswer hchain).1.overrun

/-- Where the printer adds no parentheses and the first rule has a level to spare, the chain
goes through if the line that recalls the result does. -/
theorem chained_fits
    (h : TwoSteps session.strict n lhs₁ rhs₁ lhs₂ rhs₂ result first line₁ line₂ line₃)
    (hfirst : Within limit line₁.symbols session.rules session.strict n (.equivalence lhs₁ rhs₁)
      first)
    (hspare : (limit.below 1).bind (Rewrite.overrun · line₁.symbols session.rules session.strict n
      (.equivalence lhs₁ rhs₁)) = none)
    (hdepth : limit.exceededBy line₁.read.depth = false) (hgroups : result.withGroups = result)
    {chained stepped : Turn} {previous : String}
    (hchained : session.answer limit line₂ = .ok chained)
    (hstepped : { session with previous := previous }.answer limit line₃ = .ok stepped)
    (hanswer : stepped.answer ≠ .diagnostic .reading tooDeepMessage) :
    chained.answer ≠ .diagnostic .reading tooDeepMessage := by
  obtain ⟨_, _, _, _, hone⟩ := h.one
  obtain ⟨_, _, _, htwo, hthree⟩ := h.two
  obtain ⟨second, hsecond, -⟩ :=
    Rewrite.step_over session.strict htwo.lhs.isFormula htwo.rhs.isFormula h.result_over.formula
  obtain ⟨-, hchain⟩ := h.recalled (by rwa [hgroups]) session.rules
  obtain ⟨hwithin, -, -⟩ := hthree.answered hstepped hanswer hchain
  have hρ := h.distinct_result
  rw [hgroups] at hwithin hρ
  have hwithin₂ := within_stepwise line₂.symbols h.formula hone.lhs.isFormula hone.rhs.isFormula
    htwo.lhs.isFormula hfirst hspare h.status hsecond h.distinct_rule hρ hwithin
  have hdepth₂ : limit.exceededBy line₂.read.depth = false := by
    have hread := htwo.read
    have hread' := hthree.read
    rw [Line.read, htwo.tokens] at hread
    rw [Line.read, hthree.tokens] at hread'
    obtain ⟨depth, hone', hthree'⟩ :=
      Parser.depth_joined (by rfl) (by rfl) hread hread'
    have hfits := within_of_answer hstepped hanswer
    rw [Line.read, hthree.tokens, hthree', Nesting.exceededBy_max, Bool.or_eq_false_iff] at hfits
    rw [Line.read, htwo.tokens, hone', Nesting.exceededBy_max, Bool.or_eq_false_iff]
    exact ⟨hdepth, hfits.2⟩
  rw [answer, hdepth₂, if_neg Bool.false_ne_true, htwo.read] at hchained
  dsimp only at hchained
  rw [Line.read_symbols htwo.read] at hchained
  exact answerTo_ne_reading (onApplication_within hwithin₂ hchained) tooDeepMessage

theorem same_text (h : TwoSteps strict n lhs₁ rhs₁ lhs₂ rhs₂ result first line₁ line₂ line₃)
    {text : String} (htext : result.text line₁.symbols = .ok text) :
    result.text line₂.symbols = .ok text := by
  have hsame : ∀ i ∈ result.atoms, line₂.symbols.name? (id i) = line₁.symbols.name? i := by
    intro i hi
    obtain ⟨name, ⟨hname, rfl⟩, hname', hindex⟩ := h.names i hi
    rw [id, Symbols.name?_indexOf hname, ← hindex, Symbols.name?_indexOf hname']
  have hrenumbered := Node.text_renumbered h.result_over.formula htext hsame
  rwa [← Node.renumbered, Node.renumbered_id] at hrenumbered

end TwoSteps

theorem twoSteps_of_process {formula rule₁ rule₂ text : String} {turn : Turn}
    (hread : (Line.ofText formula session.previous).read.outcome = .ok n) (hn : n.IsFormula)
    (hrule₁ : IsRuleText rule₁) (hrule₂ : IsRuleText rule₂)
    (hturn : session.process (formula ++ " => " ++ rule₁) limit = .ok turn)
    (hanswer : turn.answer = .rewritten text) :
    turn.session = { session with previous := text } ∧
      ∃ lhs₁ rhs₁ lhs₂ rhs₂ first result,
        Within limit (Line.ofText (formula ++ " => " ++ rule₁) session.previous).symbols
            session.rules session.strict n (.equivalence lhs₁ rhs₁) first ∧
          result.text (Line.ofText (formula ++ " => " ++ rule₁) session.previous).symbols =
            .ok text ∧
          TwoSteps session.strict n lhs₁ rhs₁ lhs₂ rhs₂ result first
            (.ofText (formula ++ " => " ++ rule₁) session.previous)
            (.ofText (formula ++ " => " ++ rule₁ ++ " => " ++ rule₂) session.previous)
            (.ofText (Token.answer ++ " => " ++ rule₂) text) := by
  obtain ⟨left₁, equals₁, right₁, -, hgoes₁⟩ := hrule₁.goesOn
  obtain ⟨left₂, equals₂, right₂, hsplit, hgoes₂⟩ := hrule₂.goesOn
  obtain ⟨lhs₁, rhs₁, hline₁⟩ := hgoes₁ formula session.previous n hread (.formula hn)
  obtain ⟨lhs₂, rhs₂, hline₂⟩ := hgoes₂ _ session.previous _ hline₁.read hline₁.isInline
  obtain ⟨first, hstep, hover⟩ :=
    Rewrite.step_over session.strict hline₁.lhs.isFormula hline₁.rhs.isFormula hn
  have hchain : Rewrite.chain (Line.ofText (formula ++ " => " ++ rule₁) session.previous).symbols
      session.rules session.strict n (.equivalence lhs₁ rhs₁) = .ok first := by
    rw [Rewrite.chain_formula hn, hstep]
  obtain ⟨hwithin, hanswered, hsession⟩ :=
    hline₁.answered hturn (by simp [hanswer]) hchain
  rw [hanswer] at hanswered
  obtain ⟨result, hstatus, htext⟩ := answerTo_rewritten hanswered
  have hnames : ∀ name ∈ (Line.ofText (formula ++ " => " ++ rule₁) session.previous).symbols.names,
      IsName name := fun name hname =>
    Line.isName hline₁.read (Line.read_symbols hline₁.read ▸ hname)
  have hresult := (hover.result hstatus).formula
  have hline₃ := goesOn_recalled hnames hresult htext hrule₂.plain hsplit hline₂ rfl
  exact ⟨hsession text hanswer, lhs₁, rhs₁, lhs₂, rhs₂, first, result, hwithin, htext, hn, hstep,
    hstatus, ⟨_, _, _, _, hline₁⟩, ⟨_, _, _, hline₂, hline₃⟩⟩

/-- **Chains and single steps.** In any session that comes about, let a formula with a rule
be answered with a text, and give it a second rule: in the same line, or in a line of its
own with `ans` for the text. In the one case the answer is what the second rule makes of the
result of the first, in the other what it makes of that result with the printer's parentheses
as groups; but either line may be refused as nested too deeply. So where the printer adds no
parentheses and neither line is refused, both have the same answer, and a new text leaves the
same session. If the formula with its first rule is answered also under a limit lower by a
level, the line with both rules is not refused alone. -/
theorem chain_agrees_with_steps {start : Session} (hstart : start.rules.HoldsFormulas)
    (hsession : ReachableFrom limit start session) {formula rule₁ rule₂ text : String}
    (hread : (Line.ofText formula session.previous).read.outcome = .ok n) (hn : n.IsFormula)
    (hrule₁ : IsRuleText rule₁) (hrule₂ : IsRuleText rule₂) {turn : Turn}
    (hturn : session.process (formula ++ " => " ++ rule₁) limit = .ok turn)
    (hanswer : turn.answer = .rewritten text) :
    ∃ lhs₁ rhs₁ lhs₂ rhs₂ symbols first result second second' chained stepped,
      (Line.ofText (formula ++ " => " ++ rule₁ ++ " => " ++ rule₂) session.previous).read.outcome =
          .ok (.application (.application n (.equivalence lhs₁ rhs₁)) (.equivalence lhs₂ rhs₂)) ∧
        (Line.ofText (formula ++ " => " ++ rule₁ ++ " => " ++ rule₂)
          session.previous).read.stream.symbols = symbols ∧
        Rewrite.step session.strict lhs₁ rhs₁ n = .ok first ∧ first.status = .ok result ∧
        result.text symbols = .ok text ∧
        Rewrite.step session.strict lhs₂ rhs₂ result = .ok second ∧
        Rewrite.step session.strict lhs₂ rhs₂ result.withGroups = .ok second' ∧
        session.process (formula ++ " => " ++ rule₁ ++ " => " ++ rule₂) limit = .ok chained ∧
        turn.session.process (Token.answer ++ " => " ++ rule₂) limit = .ok stepped ∧
        (chained.answer ≠ .diagnostic .reading tooDeepMessage →
          answerTo symbols second = .ok chained.answer) ∧
        (stepped.answer ≠ .diagnostic .reading tooDeepMessage →
          answerTo symbols second' = .ok stepped.answer) ∧
        (result.withGroups = result → chained.answer ≠ .diagnostic .reading tooDeepMessage →
          stepped.answer ≠ .diagnostic .reading tooDeepMessage →
          chained.answer = stepped.answer ∧
            ∀ shown, stepped.answer = .rewritten shown →
              stepped.session.previous = shown ∧ chained.session = stepped.session) ∧
        ∀ lowered, session.process (formula ++ " => " ++ rule₁) (limit.below 1) = .ok lowered →
          lowered.answer ≠ .diagnostic .reading tooDeepMessage → result.withGroups = result →
          stepped.answer ≠ .diagnostic .reading tooDeepMessage →
          chained.answer ≠ .diagnostic .reading tooDeepMessage := by
  have hrules := hsession.holdsFormulas hstart
  obtain ⟨hsession₁, lhs₁, rhs₁, lhs₂, rhs₂, first, result, hwithin, htext, hsteps⟩ :=
    twoSteps_of_process hread hn hrule₁ hrule₂ hturn hanswer
  have hresult := hsteps.result_over.formula
  obtain ⟨_, _, _, htwo, hthree⟩ := hsteps.two
  obtain ⟨second, hsecond, -⟩ :=
    Rewrite.step_over session.strict htwo.lhs.isFormula htwo.rhs.isFormula hresult
  obtain ⟨second', hsecond', -⟩ :=
    Rewrite.step_over session.strict htwo.lhs.isFormula htwo.rhs.isFormula hresult.withGroups
  obtain ⟨chained, hchained, -⟩ :=
    process_total hrules limit (formula ++ " => " ++ rule₁ ++ " => " ++ rule₂)
  rw [hsession₁]
  have hrules₁ : { session with previous := text }.rules.HoldsFormulas := hrules
  obtain ⟨stepped, hstepped, -⟩ := process_total hrules₁ limit (Token.answer ++ " => " ++ rule₂)
  have hsteps' : TwoSteps { session with previous := text }.strict n lhs₁ rhs₁ lhs₂ rhs₂ result
      first _ _ _ := hsteps
  have hchainedTo := hsteps.chained hsecond hchained
  have hsteppedTo := hsteps'.stepped hsecond' hstepped
  refine ⟨lhs₁, rhs₁, lhs₂, rhs₂, _, first, result, second, second', chained, stepped, htwo.read,
    Line.read_symbols htwo.read, hsteps.step, hsteps.status, hsteps.same_text htext, hsecond,
    hsecond', hchained, hstepped, hchainedTo, hsteppedTo, fun hgroups hfits hfits' => ?_,
    fun lowered hlowered hspare hgroups hfits => ?_⟩
  · rw [hgroups] at hsecond'
    obtain rfl := Except.ok.inj (hsecond.symm.trans hsecond')
    have hagree : chained.answer = stepped.answer :=
      Except.ok.inj ((hchainedTo hfits).symm.trans (hsteppedTo hfits'))
    refine ⟨hagree, fun shown hshown => ?_⟩
    have hchained₂ := (answer_replies htwo.read hchained).session_eq (hagree.trans hshown)
    have hstepped₂ := (answer_replies hthree.read hstepped).session_eq hshown
    rw [hchained₂, hstepped₂]
    exact ⟨rfl, rfl⟩
  · exact hsteps.chained_fits hwithin (hsteps.spare hlowered hspare)
      (within_of_answer hturn (by simp [hanswer])) hgroups hchained hstepped hfits

/-- Two rules that commute and project, and no parentheses to add. -/
theorem chain_agrees_with_steps_commuted :
    fresh.rules.HoldsFormulas ∧ ReachableFrom Nesting.standard fresh fresh ∧
      (Line.ofText "p & ~q" fresh.previous).read.outcome =
        .ok (.binary (.atom 0) .conj (.neg (.atom 1))) ∧
      IsRuleText "a & b = b & a" ∧ IsRuleText "~a & b = a" ∧
      ∃ turn chained stepped,
        fresh.process ("p & ~q" ++ " => " ++ "a & b = b & a") = .ok turn ∧
        turn.answer = .rewritten "~q & p" ∧
        fresh.process ("p & ~q" ++ " => " ++ "a & b = b & a" ++ " => " ++ "~a & b = a") =
          .ok chained ∧
        turn.session.process (Token.answer ++ " => " ++ "~a & b = a") = .ok stepped ∧
        stepped.answer = .rewritten "q" ∧ chained.answer = stepped.answer ∧
        chained.session = stepped.session := by
  have hreach : ReachableFrom Nesting.standard fresh fresh := reachable_fresh _
  have hread : (Line.ofText "p & ~q" fresh.previous).read.outcome =
      .ok (.binary (.atom 0) .conj (.neg (.atom 1))) := rfl
  have hcommutes : IsRuleText "a & b = b & a" :=
    ⟨by decide, [⟨.identifier, "a"⟩, ⟨.connective .conj, "&"⟩, ⟨.identifier, "b"⟩], "=", _, _, _,
      rfl, rfl, .binary _ (.atom 0) (.atom 1), rfl, .binary _ (.atom 0) (.atom 1)⟩
  have hprojects : IsRuleText "~a & b = a" :=
    ⟨by decide, [⟨.negation, "~"⟩, ⟨.identifier, "a"⟩, ⟨.connective .conj, "&"⟩, ⟨.identifier, "b"⟩],
      "=", _, _, _, rfl, rfl, .binary _ (.neg (.atom 0)) (.atom 1), rfl, .atom 0⟩
  have hfirst : (fresh.process ("p & ~q" ++ " => " ++ "a & b = b & a")).toOption.map
      (fun turn => (turn.answer, turn.session)) =
        some (.rewritten "~q & p", { fresh with previous := "~q & p" }) := by decide +kernel
  have hlast : (process { fresh with previous := "~q & p" }
      (Token.answer ++ " => " ++ "~a & b = a")).toOption.map (·.answer) =
        some (.rewritten "q") := by decide +kernel
  have hlower : (fresh.process ("p & ~q" ++ " => " ++ "a & b = b & a")
      (Nesting.standard.below 1)).toOption.map (·.answer) = some (.rewritten "~q & p") := by
    decide +kernel
  obtain ⟨turn, hturn, hreply⟩ := ok_of_map_toOption hfirst
  obtain ⟨hanswer, hsession⟩ := Prod.mk.inj hreply
  obtain ⟨_, _, _, _, _, _, _, _, _, chained, stepped, hchain, -, hstep, hstatus, -, -, -, hchained,
      hstepped, -, -, hagree, hfits⟩ :=
    chain_agrees_with_steps RuleStore.holdsFormulas_empty hreach hread
      (.binary _ (.atom 0) (.neg (.atom 1))) hcommutes hprojects hturn hanswer
  cases hchain
  cases hstep
  cases hstatus
  obtain ⟨stepped', hstepped', hshown⟩ := ok_of_map_toOption hlast
  rw [← hsession] at hstepped'
  obtain rfl := Except.ok.inj (hstepped'.symm.trans hstepped)
  obtain ⟨lowered, hlowered, hspare⟩ := ok_of_map_toOption hlower
  have hanswered : chained.answer ≠ .diagnostic .reading tooDeepMessage :=
    hfits lowered hlowered (by simp [hspare]) rfl (by simp [hshown])
  obtain ⟨hsame, hsessions⟩ := hagree rfl hanswered (by simp [hshown])
  exact ⟨RuleStore.holdsFormulas_empty, hreach, hread, hcommutes, hprojects, turn, chained,
    stepped', hturn, hanswer, hchained, hstepped, hshown, hsame, (hsessions _ hshown).2⟩

/-- The printer sets parentheses around what is negated. In one line, the second rule takes the
negation away from `p | q`, and in a line of its own from `(p | q)`. -/
theorem recalled_parentheses_are_kept :
    IsRuleText "a = ~a" ∧ IsRuleText "~b = b" ∧
      ∃ turn, fresh.process "p | q => a = ~a" = .ok turn ∧ turn.answer = .rewritten "~(p | q)" ∧
        (fresh.process "p | q => a = ~a => ~b = b").toOption.map (·.answer) =
          some (.rewritten "p | q") ∧
        (turn.session.process "ans => ~b = b").toOption.map (·.answer) =
          some (.rewritten "(p | q)") := by
  have hfirst : (fresh.process "p | q => a = ~a").toOption.map
      (fun turn => (turn.answer, turn.session)) =
        some (.rewritten "~(p | q)", { fresh with previous := "~(p | q)" }) := by decide +kernel
  obtain ⟨turn, hturn, hreply⟩ := ok_of_map_toOption hfirst
  obtain ⟨hanswer, hsession⟩ := Prod.mk.inj hreply
  refine ⟨⟨by decide, [⟨.identifier, "a"⟩], "=", _, _, _, rfl, rfl, .atom 0, rfl, .neg (.atom 0)⟩,
    ⟨by decide, [⟨.negation, "~"⟩, ⟨.identifier, "b"⟩], "=", _, _, _, rfl, rfl, .neg (.atom 0), rfl,
      .atom 0⟩,
    turn, hturn, hanswer, by decide +kernel, ?_⟩
  rw [hsession]
  decide +kernel

/-- The line with `ans` may be refused alone, for reading parentheses goes deeper than writing
them. -/
example :
    (process fresh "(p) => a = ((a)) => b = b" (some ⟨20, false⟩)).toOption.map (·.answer) =
        some (.rewritten "(((p)))") ∧
      (process fresh "(p) => a = ((a))" (some ⟨20, false⟩)).toOption.map (·.session) =
        some { fresh with previous := "(((p)))" } ∧
      (process { fresh with previous := "(((p)))" } "ans => b = b"
          (some ⟨20, false⟩)).toOption.map (·.answer) =
        some (.diagnostic .reading tooDeepMessage) := by
  decide +kernel

/-- The chain may be refused alone, for in it the first rule is applied one level further down. -/
example :
    (process fresh "~~p => ~~a = a => b = b" (some ⟨3, false⟩)).toOption.map (·.answer) =
        some (.diagnostic .reading tooDeepMessage) ∧
      (process fresh "~~p => ~~a = a" (some ⟨3, false⟩)).toOption.map (·.session) =
        some { fresh with previous := "p" } ∧
      (process { fresh with previous := "p" } "ans => b = b"
          (some ⟨3, false⟩)).toOption.map (·.answer) =
        some (.rewritten "p") := by
  decide +kernel

end Session

end Propositional
