/-
Rules by name and inline. A stored rule has the indices of the line that bound it,
the same rule written inline those of the line that applies it, where it may share
names with what it is applied to. Rewriting does not see the difference
(`onApplication_renumbered`), and neither does what is shown of it, since all that is
bound or found in the way comes from the expression. So a name is as good as the rule
that it was bound to (`named_rule_is_inline_rule`).
-/
import Propositional.Proofs.Grammar.Depth
import Propositional.Proofs.Printing.Reprint
import Propositional.Proofs.Rewriting.Depth
import Propositional.Proofs.Session.History
import Propositional.Proofs.Session.Lines
import Propositional.Proofs.Session.Replies

namespace Propositional

open Nesting (Limit)
open Propositional.Parser

/-- Under the new numbers the atoms of an expression have the names that they had. -/
def KeepsNames (symbols symbols' : Symbols) (ρ : Int → Int) (expr : Node) : Prop :=
  ∀ i ∈ expr.atoms, ∃ name, symbols.name? i = some name ∧ symbols'.name? (ρ i) = some name

namespace Session

variable {limit : Limit} {session : Session} {line line' : Line} {symbols symbols' : Symbols}
  {π ρ : Int → Int} {expr : Node}

/-! ## What is shown of an outcome -/

theorem text_of_keepsNames (hkeeps : KeepsNames symbols symbols' ρ expr) {n : Node}
    (hn : expr.Over n) :
    ∃ text, n.text symbols = .ok text ∧ (n.renumbered ρ).text symbols' = .ok text := by
  obtain ⟨text, htext⟩ : ∃ text, n.text symbols = .ok text := by
    refine Node.text_formula hn.formula fun i hi => ?_
    obtain ⟨name, hname, -⟩ := hkeeps i (hn.atoms i hi)
    rw [hname, Option.isSome_some]
  refine ⟨text, htext, Node.text_renumbered hn.formula htext fun i hi => ?_⟩
  obtain ⟨name, hname, hname'⟩ := hkeeps i (hn.atoms i hi)
  rw [hname, hname']

theorem describe_shown (symbols : Symbols) (m : Mismatch) :
    m.describe symbols = do
      let found ← m.shown.1.text symbols
      return mismatchMessage ++ " (" ++ m.shown.2.describe ++ "): " ++ found := rfl

theorem describeMismatches_renumbered (limit : Limit) (hkeeps : KeepsNames symbols symbols' ρ expr)
    {mismatches mismatches' : List Mismatch} (hfound : ∀ m ∈ mismatches, expr.Over m.found)
    (hshown : mismatches'.map Mismatch.shown =
      mismatches.map fun m => (m.found.renumbered ρ, m.reason)) :
    describeMismatches limit symbols' mismatches' = describeMismatches limit symbols mismatches := by
  induction mismatches generalizing mismatches' with
  | nil =>
    rw [List.map_nil, List.map_eq_nil_iff] at hshown
    rw [hshown]
    rfl
  | cons m rest ih =>
    rw [List.map_cons, List.map_eq_cons_iff] at hshown
    obtain ⟨m', rest', rfl, hm, hrest⟩ := hshown
    have hfound' : m'.found = m.found.renumbered ρ := congrArg Prod.fst hm
    obtain ⟨text, htext, htext'⟩ := text_of_keepsNames hkeeps (hfound m List.mem_cons_self)
    have hnote : m'.describe symbols' = m.describe symbols := by
      rw [describe_shown, describe_shown, hm]
      simp only [Mismatch.shown, htext, htext']
    rw [describeMismatches, describeMismatches, hfound', Node.refusesText_renumbered, hnote,
      ih (fun m hm => hfound m (List.mem_cons_of_mem _ hm)) hrest]

/-- Two turns with the same answer and notes that leave the same session. -/
structure SameReply (turn turn' : Turn) : Prop where
  answer : turn'.answer = turn.answer
  notes : turn'.notes = turn.notes
  session : turn'.session = turn.session

theorem decline_same (hnotes : line'.notes = line.notes) (complaint : Complaint) (message : String)
    (notes : List String) (events events' : List Event) :
    SameReply (decline session line complaint message notes events)
      (decline session line' complaint message notes events') := by
  refine ⟨rfl, ?_, rfl⟩
  rw [decline, decline, hnotes]

theorem onOutcome_renumbered (limit : Limit) (session : Session)
    (hnotes : line'.notes = line.notes) (hkeeps : KeepsNames symbols symbols' ρ expr)
    {outcome outcome' : Rewrite} (hover : Rewrite.Over expr outcome)
    (hshown : Rewrite.ShownAs ρ outcome outcome') (events events' : List Event) :
    ∃ turn turn', onOutcome limit session line symbols outcome events = .ok turn ∧
      onOutcome limit session line' symbols' outcome' events' = .ok turn' ∧
      SameReply turn turn' := by
  have hsame := describeMismatches_renumbered limit hkeeps hover.found hshown.mismatches
  obtain ⟨⟨notes, overrun⟩, hdescribed⟩ : ∃ described,
      describeMismatches limit symbols outcome.mismatches = .ok described :=
    describeMismatches_ok limit fun m hm => by
      refine ⟨(hover.found m hm).formula, fun i hi => ?_⟩
      obtain ⟨name, hname, -⟩ := hkeeps i ((hover.found m hm).atoms i hi)
      rw [hname, Option.isSome_some]
  rw [onOutcome, onOutcome, hsame, hdescribed]
  simp only [bind, Except.bind]
  split
  · exact ⟨_, _, rfl, rfl, decline_same hnotes ..⟩
  rw [Rewrite.unwrap, Rewrite.unwrap, hshown.status]
  cases hresult : outcome.status with
  | mismatch | unbound => exact ⟨_, _, rfl, rfl, decline_same hnotes ..⟩
  | ok result =>
    obtain ⟨text, htext, htext'⟩ := text_of_keepsNames hkeeps (hover.result hresult)
    simp only [RewriteStatus.renumbered, Node.refusesText_renumbered]
    split
    · exact ⟨_, _, rfl, rfl, decline_same hnotes ..⟩
    · rw [htext, htext']
      exact ⟨_, _, rfl, rfl, rfl, by simp only [hnotes], rfl⟩

/-! ## Chains that end with the same rule under other numbers -/

/-- **A rule is as good as the same rule with other numbers** at the end of a chain. -/
theorem onApplication_renumbered (limit : Limit) (hnotes : line'.notes = line.notes)
    {target rule rule' lhs rhs : Node} (hhead : (Rewrite.head target).IsFormula)
    (happlied : ∀ r ∈ Rewrite.applied target, r.IsFormulaRule)
    (hrule : Rewrite.resolve symbols session.rules rule = .ok (.equivalence lhs rhs))
    (hrule' : Rewrite.resolve symbols' session.rules rule' =
      .ok (.equivalence (lhs.renumbered π) (rhs.renumbered π)))
    (hlhs : lhs.IsFormula) (hrhs : rhs.IsFormula) (hπ : DistinctOn π (lhs.atoms ++ rhs.atoms))
    (hkeeps : KeepsNames symbols symbols' id (Rewrite.head target)) :
    ∃ turn turn', onApplication limit session line symbols target rule = .ok turn ∧
      onApplication limit session line' symbols' target rule' = .ok turn' ∧
      SameReply turn turn' := by
  have hoverrun :
      (limit.bind (Rewrite.overrun · symbols' session.rules session.strict target rule')).isSome =
        (limit.bind (Rewrite.overrun · symbols session.rules session.strict target rule)).isSome := by
    cases limit with
    | none => rfl
    | some bound => exact Rewrite.overrun_renumbered hhead happlied hrule hrule' hlhs hπ
  rw [onApplication, onApplication]
  cases hlimit : limit.bind
      (Rewrite.overrun · symbols session.rules session.strict target rule) with
  | some mismatches =>
    rw [hlimit, Option.isSome_some, Option.isSome_iff_exists] at hoverrun
    obtain ⟨mismatches', hlimit'⟩ := hoverrun
    rw [hlimit']
    exact ⟨_, _, rfl, rfl, decline_same hnotes ..⟩
  | none =>
    rw [hlimit, Option.isSome_none, Option.isSome_eq_false_iff, Option.isNone_iff_eq_none] at hoverrun
    rw [hoverrun]
    dsimp only
    obtain ⟨outcome, outcome', hchain, hchain', hover, hshown⟩ :=
      Rewrite.chain_renumbered hhead happlied hrule hrule' hlhs hrhs hπ
    rw [hchain, hchain']
    exact onOutcome_renumbered limit session hnotes hkeeps hover hshown _ _

theorem answer_renumbered {target rule rule' lhs rhs : Node}
    (hread : line.read.outcome = .ok (.application target rule))
    (hread' : line'.read.outcome = .ok (.application target rule'))
    (hdepth : limit.exceededBy line'.read.depth = limit.exceededBy line.read.depth)
    (hnotes : line'.notes = line.notes) (hinline : target.IsInline)
    (hrule : Rewrite.resolve line.read.stream.symbols session.rules rule =
      .ok (.equivalence lhs rhs))
    (hrule' : Rewrite.resolve line'.read.stream.symbols session.rules rule' =
      .ok (.equivalence (lhs.renumbered π) (rhs.renumbered π)))
    (hlhs : lhs.IsFormula) (hrhs : rhs.IsFormula) (hπ : DistinctOn π (lhs.atoms ++ rhs.atoms))
    (hkeeps : KeepsNames line.read.stream.symbols line'.read.stream.symbols id
      (Rewrite.head target)) :
    ∃ turn turn', session.answer limit line = .ok turn ∧ session.answer limit line' = .ok turn' ∧
      SameReply turn turn' := by
  rw [answer, answer, hdepth, hread, hread']
  split
  · exact ⟨_, _, rfl, rfl, decline_same hnotes ..⟩
  · obtain ⟨hhead, happlied⟩ := Rewrite.links_of_isInline hinline
    exact onApplication_renumbered limit hnotes hhead happlied hrule hrule' hlhs hrhs hπ hkeeps

/-! ## Rules that have been bound -/

/-- A line that binds a name to a rule. -/
def bindingLine (name equals : String) (left right : List Token) : Line :=
  ⟨[⟨.identifier, name⟩] ++ ⟨.binds, ":="⟩ :: (left ++ ⟨.equals, equals⟩ :: right), []⟩

theorem mem_bindingLine {name equals other : String} {left right : List Token}
    (h : other = name ∨ other ∈ Token.identifiers (left ++ right)) :
    other ∈ (bindingLine name equals left right).symbols.names := by
  refine Grammar.mem_afterTokens ?_
  rw [Token.identifiers_append, List.mem_append] at h
  simp only [bindingLine, Token.identifiers_append, List.mem_append]
  simp [Token.identifiers_cons, h]

/-- Read in a line within the limit that binds it to a name, a rule has these sides. -/
structure BoundRule (limit : Limit) (name equals : String) (left right : List Token)
    (lhs rhs : Node) : Prop where
  lhs : Grammar.Formula (bindingLine name equals left right).symbols.indexOf left lhs
  rhs : Grammar.Formula (bindingLine name equals left right).symbols.indexOf right rhs
  read : ∃ n, (bindingLine name equals left right).read.outcome = .ok n
  within : limit.exceededBy (bindingLine name equals left right).read.depth = false

theorem bound_rule {name shown text bound : String} {turn : Turn}
    (hrules : session.rules.HoldsFormulas) (hname : IsName name) (hanswer : name ≠ Token.answer)
    (htext : Lexeme.IsPlain text)
    (h : session.process (name ++ " := " ++ text) limit = .ok turn)
    (hbound : turn.answer = .bound bound shown) :
    ∃ left equals right lhs rhs,
      Lexeme.tokens (Lexeme.ofSource text) = left ++ ⟨.equals, equals⟩ :: right ∧
        BoundRule limit name equals left right lhs rhs ∧
        (Entry.answered session (name ++ " := " ++ text) turn).rule? =
          some (name, .equivalence lhs rhs) := by
  have htokens : (Line.ofText (name ++ " := " ++ text) session.previous).tokens =
      [⟨.identifier, name⟩] ++ ⟨.binds, ":="⟩ :: Lexeme.tokens (Lexeme.ofSource text) := by
    have hplain := Lexeme.isPlain_name hname hanswer
    rw [Line.ofText_bound name session.previous htext, Line.ofText,
      hplain.tokens_ofSource session.previous, Lexeme.tokens_name hname]
  have hwithin := within_of_answer h (by simp [hbound])
  cases answers_of_process hrules h with
  | bound hread hindex =>
    have hentry := Entry.rule?_answered hbound hread
    rw [Line.read, htokens] at hread hindex hwithin
    obtain ⟨other, binds, equals, left, right, lhs, rhs, hsplit, hl, hr, hi, hsides⟩ :=
      (Grammar.parse_iff.1 hread).of_binding
    simp only [List.singleton_append, List.cons.injEq, Token.mk.injEq, true_and] at hsplit
    obtain ⟨rfl, -, hrule⟩ := hsplit
    rw [hrule] at hread hindex hwithin hl hr hi
    have hsame : bound = name := by
      have hmem : name ∈ (bindingLine name equals left right).symbols.names :=
        mem_bindingLine (.inl rfl)
      cases hbound
      rw [Grammar.parse_stream hread, Node.atom.inj hi] at hindex
      exact Option.some.inj (hindex.symm.trans (Symbols.name?_indexOf hmem))
    rw [hsides, hsame] at hentry
    exact ⟨left, equals, right, lhs, rhs, hrule, ⟨hl, hr, ⟨_, hread⟩, hwithin⟩, hentry⟩
  | declined | rewritten | table => cases hbound

theorem keepsNames_before {before : Line} {target : Node} {more more' : List Token}
    (hread : before.read.outcome = .ok target) (hinline : target.IsInline)
    (hline : line.tokens = before.tokens ++ more) (hline' : line'.tokens = before.tokens ++ more') :
    KeepsNames line.symbols line'.symbols id (Rewrite.head target) := by
  intro i hi
  obtain ⟨name, hlines⟩ := Line.head_names hread hinline i hi
  obtain ⟨hname, hindex⟩ := hlines line more hline
  obtain ⟨hname', hindex'⟩ := hlines line' more' hline'
  refine ⟨name, ?_, ?_⟩
  · rw [← hindex, Symbols.name?_indexOf hname]
  · rw [id, ← hindex', Symbols.name?_indexOf hname']

theorem resolve_name {rules : RuleStore} {name : String} {rule : Node}
    (hname : name ∈ symbols.names) (hstored : rules.get? name = some rule) :
    Rewrite.resolve symbols rules (.ruleName (symbols.indexOf name)) = .ok rule := by
  rw [Rewrite.resolve_ruleName (Symbols.name?_indexOf hname), RuleStore.find, hstored]

theorem distinctOn_rule {s symbols : Symbols} {left right : List Token} {lhs rhs : Node}
    (hl : Grammar.Formula s.indexOf left lhs) (hr : Grammar.Formula s.indexOf right rhs)
    (hs : ∀ name ∈ Token.identifiers (left ++ right), name ∈ s.names)
    (hsymbols : ∀ name ∈ Token.identifiers (left ++ right), name ∈ symbols.names) :
    DistinctOn (s.renumbering symbols) (lhs.atoms ++ rhs.atoms) := by
  refine Grammar.distinctOn_names fun i hi => ?_
  rw [hl.atoms, hr.atoms, ← List.map_append, ← Token.identifiers_append] at hi
  obtain ⟨name, hname, rfl⟩ := List.mem_map.1 hi
  exact ⟨name, hs name hname, hsymbols name hname, rfl⟩

theorem answer_inline {before line line' : Line} {target lhs rhs : Node} {name equals : String}
    {left right : List Token} (hread : before.read.outcome = .ok target)
    (hinline : target.IsInline) (hbound : BoundRule limit name equals left right lhs rhs)
    (hstored : session.rules.get? name = some (.equivalence lhs rhs))
    (hline : line.tokens = before.tokens ++ [⟨.applies, "=>"⟩, ⟨.identifier, name⟩])
    (hline' : line'.tokens =
      before.tokens ++ ⟨.applies, "=>"⟩ :: (left ++ ⟨.equals, equals⟩ :: right))
    (hnotes : line'.notes = line.notes) :
    ∃ turn turn', session.answer limit line = .ok turn ∧ session.answer limit line' = .ok turn' ∧
      SameReply turn turn' := by
  have hnames : ∀ other ∈ Token.identifiers (left ++ right),
      other ∈ (bindingLine name equals left right).symbols.names :=
    fun other hother => mem_bindingLine (.inr hother)
  have hgoes := goesOn_of_table hread hinline hline' hbound.lhs hbound.rhs hnames
  have hnamed := Grammar.parse_applied_name hread hinline "=>" name
  have hinlined := hgoes.read
  have hexceeds : limit.exceededBy line'.read.depth = limit.exceededBy line.read.depth := by
    obtain ⟨n, hbinding⟩ := hbound.read
    have hwithin := hbound.within
    rw [Line.read, hline'] at hinlined
    obtain ⟨depth, hdepthBound, hdepthInline⟩ :=
      Parser.depth_joined (by rfl) (by rfl) hbinding hinlined
    rw [Line.read, bindingLine, hdepthBound, Nesting.exceededBy_max, Bool.or_eq_false_iff] at hwithin
    rw [Line.read, Line.read, hline, hline', Parser.depth_name (by rfl) hnamed, hdepthInline,
      Nesting.exceededBy_max, hwithin.2, Bool.or_false]
  rw [← hline] at hnamed
  have hrule : Rewrite.resolve line.read.stream.symbols session.rules
      (.ruleName (line.symbols.indexOf name)) = .ok (.equivalence lhs rhs) := by
    rw [Line.read_symbols hnamed]
    refine resolve_name (Grammar.mem_afterTokens ?_) hstored
    rw [hline]
    simp [Token.identifiers_cons]
  have hkeeps : KeepsNames line.read.stream.symbols line'.read.stream.symbols id
      (Rewrite.head target) := by
    rw [Line.read_symbols hnamed, Line.read_symbols hinlined]
    exact keepsNames_before hread hinline hline hline'
  exact answer_renumbered hnamed hinlined hexceeds hnotes hinline hrule rfl hbound.lhs.isFormula
    hbound.rhs.isFormula (distinctOn_rule hbound.lhs hbound.rhs hnames hgoes.mem_symbols) hkeeps

/-- **A named rule behaves exactly like the same rule written inline.** In a session that has come
about from one whose rules are equivalences of formulas, let the rule under a name
other than `ans` be the one that was last bound to it, by a line `name := text` with a
text that has no malformed pieces and does not use the word `ans`. Then a formula,
or one with inline rules applied to it, may be given the name or the text for its next
rule: the answer is the same, with the same notes, and it leaves the same session. -/
theorem named_rule_is_inline_rule {start before : Session} {earlier later : List Entry}
    {turn : Turn} {name shown text applied : String} {target : Node}
    (hstart : start.rules.HoldsFormulas)
    (hhistory : History limit start
      (earlier ++ .answered before (name ++ " := " ++ text) turn :: later) session)
    (hname : IsName name) (hanswer : name ≠ Token.answer) (htext : Lexeme.IsPlain text)
    (hbound : turn.answer = .bound name shown)
    (hlater : ∀ e ∈ later, ∀ rule, e.rule? ≠ some (name, rule))
    (hread : (Line.ofText applied session.previous).read.outcome = .ok target)
    (hinline : target.IsInline) :
    ∃ named inline, session.process (applied ++ " => " ++ name) limit = .ok named ∧
      session.process (applied ++ " => " ++ text) limit = .ok inline ∧
      inline.answer = named.answer ∧ inline.notes = named.notes ∧
      inline.session = named.session := by
  obtain ⟨hbefore, hprocess⟩ :=
    hhistory.process hstart (List.mem_append_right _ List.mem_cons_self)
  obtain ⟨left, equals, right, lhs, rhs, hsplit, hrule, hentry⟩ :=
    bound_rule hbefore hname hanswer htext hprocess hbound
  have hplain := Lexeme.isPlain_name hname hanswer
  obtain ⟨hline, hflaws⟩ := Line.ofText_applied applied session.previous hplain
  obtain ⟨hline', hflaws'⟩ := Line.ofText_applied applied session.previous htext
  rw [Lexeme.tokens_name hname] at hline
  rw [hsplit] at hline'
  have hnotes : (Line.ofText (applied ++ " => " ++ text) session.previous).notes =
      (Line.ofText (applied ++ " => " ++ name) session.previous).notes := by
    rw [Line.notes, Line.notes, hflaws, hflaws']
  obtain ⟨named, inline, hnamed, hinlined, hsame⟩ :=
    answer_inline hread hinline hrule (hhistory.stored_rule hstart hentry hlater) hline hline' hnotes
  exact ⟨named, inline, hnamed, hinlined, hsame.answer, hsame.notes, hsame.session⟩

/-- Strict matching, and a rule that swaps the sides of a conjunction. -/
def commuting : Session :=
  ⟨"", .ofList [("swap", .equivalence (.binary (.atom 1) .conj (.atom 2))
    (.binary (.atom 2) .conj (.atom 1)))], .bits, true⟩

/-- The rule shares its names with what it is applied to, where they stand the other way round. -/
theorem named_rule_is_inline_rule_shared :
    fresh.rules.HoldsFormulas ∧
      (∃ turn, turn.answer = .bound "swap" "swap := p & q = q & p" ∧
        History Nesting.standard fresh
          [.answered fresh ("swap" ++ " := " ++ "p & q = q & p") turn, .setStrict true] commuting) ∧
      IsName "swap" ∧ "swap" ≠ Token.answer ∧ Lexeme.IsPlain "p & q = q & p" ∧
      (∃ target, (Line.ofText "q & ~p" commuting.previous).read.outcome = .ok target ∧
        target.IsInline) ∧
      ∃ named inline,
        commuting.process ("q & ~p" ++ " => " ++ "swap") = .ok named ∧
        commuting.process ("q & ~p" ++ " => " ++ "p & q = q & p") = .ok inline ∧
        named.answer = .rewritten "~p & q" ∧ inline.answer = named.answer ∧
        inline.notes = named.notes ∧ inline.session = named.session := by
  have hbinding : (fresh.process ("swap" ++ " := " ++ "p & q = q & p")).toOption.map
      (fun turn => (turn.answer, turn.session.setStrict true)) =
        some (.bound "swap" "swap := p & q = q & p", commuting) := by decide +kernel
  have hshown : (commuting.process ("q & ~p" ++ " => " ++ "swap")).toOption.map (·.answer) =
      some (.rewritten "~p & q") := by decide +kernel
  obtain ⟨turn, hturn, hbound⟩ := ok_of_map_toOption hbinding
  simp only [Prod.mk.injEq] at hbound
  obtain ⟨hanswer, hsession⟩ := hbound
  have hhistory : History Nesting.standard fresh
      ([] ++ .answered fresh ("swap" ++ " := " ++ "p & q = q & p") turn :: [.setStrict true])
      commuting :=
    .line hturn (.setStrict (hsession ▸ .nil _))
  have hread : (Line.ofText "q & ~p" commuting.previous).read.outcome =
      .ok (.binary (.atom 0) .conj (.neg (.atom 1))) := rfl
  have hinline : (Node.binary (.atom 0) .conj (.neg (.atom 1))).IsInline :=
    .formula (.binary _ (.atom 0) (.neg (.atom 1)))
  have hlater : ∀ e ∈ [Entry.setStrict true], ∀ rule, e.rule? ≠ some ("swap", rule) := by
    intro e he rule
    rw [List.mem_singleton.1 he]
    exact nofun
  obtain ⟨named, inline, hnamed, hinlined, hsame⟩ :=
    named_rule_is_inline_rule RuleStore.holdsFormulas_empty hhistory (by decide) (by decide)
      (by decide) hanswer hlater hread hinline
  obtain ⟨named', hnamed', hrewritten⟩ := ok_of_map_toOption hshown
  obtain rfl : named' = named := Except.ok.inj (hnamed'.symm.trans hnamed)
  exact ⟨RuleStore.holdsFormulas_empty, ⟨turn, hanswer, hhistory⟩, by decide, by decide, by decide,
    ⟨_, hread, hinline⟩, named', inline, hnamed, hinlined, hrewritten, hsame⟩

end Session

end Propositional
