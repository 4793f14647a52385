/-
How a line is answered. In a session whose stored rules are equivalences of
formulas every line has an answer (`answer_total`), and it is one of four
(`Answers`): a diagnostic, which leaves the session as it was; a rule bound to a
name; the text of a rewritten formula; the table of a formula. What a formula is
answered with depends on the limit alone (`answer_formula`, `answer_overrun`).
-/
import Propositional.Proofs.Grammar.Shape
import Propositional.Proofs.TruthTable.Text
import Propositional.Session.History

namespace Propositional

open Nesting (Limit)

namespace Session

/-- Whether reading a line that is a formula, evaluating the formula or writing it goes
beyond the limit. -/
def Line.overruns (limit : Limit) (line : Line) (formula : Node) : Bool :=
  limit.exceededBy line.read.depth || (limit.refusesTable formula || limit.refusesText formula)

/-- The ways in which a session may answer a line. -/
inductive Answers (limit : Limit) (session : Session) (line : Line) : Turn → Prop
  | declined (complaint : Complaint) (message : String) (notes : List String)
      (events : List Event) :
      Answers limit session line (decline session line complaint message notes events)
  | bound {i : Int} {lhs rhs : Node} {name text : String} :
      line.read.outcome = .ok (.binding (.atom i) (.equivalence lhs rhs)) →
      line.read.stream.symbols.name? i = some name → (Node.equivalence lhs rhs).IsFormulaRule →
      Answers limit session line
        ⟨.bound name text, line.notes,
          { session with rules := session.rules.insert name (.equivalence lhs rhs) },
          line.events ++ [.binding name]⟩
  | rewritten {target rule result : Node} {outcome : Rewrite} {text : String}
      (notes : List String) (events : List Event) :
      line.read.outcome = .ok (.application target rule) →
      Rewrite.chain line.read.stream.symbols session.rules session.strict target rule =
        .ok outcome →
      outcome.status = .ok result → result.IsFormula →
      result.text line.read.stream.symbols = .ok text →
      Answers limit session line
        ⟨.rewritten text, line.notes ++ notes, { session with previous := text },
          line.events ++ events⟩
  | table {n : Node} {t : TruthTable} {text : String} :
      line.read.outcome = .ok n → n.IsFormula → line.overruns limit n = false →
      TruthTable.ofFormula n line.read.stream.symbols = .ok t →
      n.text line.read.stream.symbols = .ok text →
      Answers limit session line
        ⟨.table t text, line.notes, { session with previous := text }, line.events⟩

variable {limit : Limit} {session : Session} {line : Line}

/-! ## Formulas -/

/-- Past the limit on nesting, a formula is tabulated or refused. -/
theorem answer_of_formula {n : Node} (hread : line.read.outcome = .ok n) (hn : n.IsFormula)
    (hdepth : limit.exceededBy line.read.depth = false) :
    session.answer limit line = onFormula limit session line line.read.stream.symbols n := by
  rw [answer, hdepth, if_neg Bool.false_ne_true, hread]
  cases hn <;> rfl

theorem answer_overrun {n : Node} (hread : line.read.outcome = .ok n) (hn : n.IsFormula)
    (h : line.overruns limit n) : session.answer limit line = .ok (tooDeep session line [] []) := by
  rw [Line.overruns, Bool.or_eq_true] at h
  cases hdepth : limit.exceededBy line.read.depth with
  | true => rw [answer, if_pos hdepth]
  | false =>
    have hrest := h.resolve_left (by simp [hdepth])
    rw [answer_of_formula hread hn hdepth, onFormula, if_pos hrest]
    rfl

/-- Within the limit a formula is answered with its table and its text. -/
theorem answer_formula {n : Node} {t : TruthTable} {text : String}
    (hread : line.read.outcome = .ok n) (hn : n.IsFormula) (h : line.overruns limit n = false)
    (ht : TruthTable.ofFormula n line.read.stream.symbols = .ok t)
    (htext : n.text line.read.stream.symbols = .ok text) :
    session.answer limit line =
      .ok ⟨.table t text, line.notes, { session with previous := text }, line.events⟩ := by
  rw [Line.overruns, Bool.or_eq_false_iff] at h
  rw [answer_of_formula hread hn h.1, onFormula, h.2, if_neg Bool.false_ne_true, ht, htext]
  rfl

/-! ## All lines -/

theorem answers_formula {n : Node} (hread : line.read.outcome = .ok n) (hn : n.IsFormula)
    (hnamed : n.NamedIn line.read.stream.symbols) :
    ∃ turn, session.answer limit line = .ok turn ∧ Answers limit session line turn := by
  cases h : line.overruns limit n with
  | true => exact ⟨_, answer_overrun hread hn h, .declined ..⟩
  | false =>
    obtain ⟨t, ht, -⟩ := TruthTable.ofFormula_tabulates hn line.read.stream.symbols
    obtain ⟨text, htext⟩ := Node.text_formula hn hnamed
    exact ⟨_, answer_formula hread hn h ht htext, .table hread hn h ht htext⟩

theorem answers_failure {failure : Parser.Failure} (hread : line.read.outcome = .error failure) :
    ∃ turn, onFailure limit session line line.read.stream.symbols failure = .ok turn ∧
      Answers limit session line turn := by
  obtain ⟨message, hmessage⟩ := Grammar.parse_error_message hread
  rw [onFailure]
  split
  · exact ⟨_, rfl, .declined ..⟩
  · rw [Line.read, hmessage]
    exact ⟨_, rfl, .declined ..⟩

theorem answers_binding {i : Int} {lhs rhs : Node} {name : String}
    (hread : line.read.outcome = .ok (.binding (.atom i) (.equivalence lhs rhs)))
    (hname : line.read.stream.symbols.name? i = some name) (hlhs : lhs.IsFormula)
    (hrhs : rhs.IsFormula) (hlnamed : lhs.NamedIn line.read.stream.symbols)
    (hrnamed : rhs.NamedIn line.read.stream.symbols) :
    ∃ turn, onBinding limit session line line.read.stream.symbols (.atom i) (.equivalence lhs rhs) =
      .ok turn ∧ Answers limit session line turn := by
  obtain ⟨left, hleft⟩ := Node.text_formula hlhs hlnamed
  obtain ⟨right, hright⟩ := Node.text_formula hrhs hrnamed
  have htext := Node.ruleText_equivalence hleft hright
  rw [onBinding, Node.text_atom hname]
  simp only [bind, Except.bind]
  split
  · exact ⟨_, rfl, .declined ..⟩
  · rw [htext]
    exact ⟨_, rfl, .bound hread hname ⟨hlhs, hrhs⟩⟩

/-- Mismatches at formulas whose atoms have names can be described. -/
theorem describeMismatches_ok (limit : Limit) {symbols : Symbols} {mismatches : List Mismatch}
    (h : ∀ m ∈ mismatches, m.found.IsFormula ∧ m.found.NamedIn symbols) :
    ∃ described, describeMismatches limit symbols mismatches = .ok described := by
  induction mismatches with
  | nil => exact ⟨_, rfl⟩
  | cons m rest ih =>
    obtain ⟨hformula, hnamed⟩ := h m List.mem_cons_self
    obtain ⟨found, hfound⟩ := Node.text_formula hformula hnamed
    obtain ⟨described, hrest⟩ := ih fun m' hm' => h m' (List.mem_cons_of_mem _ hm')
    rw [describeMismatches]
    split
    · exact ⟨_, rfl⟩
    · rw [Mismatch.describe, hfound, hrest]
      exact ⟨_, rfl⟩

theorem answers_outcome {target rule : Node} {outcome : Rewrite} (events : List Event)
    (hread : line.read.outcome = .ok (.application target rule))
    (hchain : Rewrite.chain line.read.stream.symbols session.rules session.strict target rule =
      .ok outcome)
    (hhead : (Rewrite.links target rule).1.NamedIn line.read.stream.symbols)
    (hover : Rewrite.Over (Rewrite.links target rule).1 outcome) :
    ∃ turn, onOutcome limit session line line.read.stream.symbols outcome events = .ok turn ∧
      Answers limit session line turn := by
  obtain ⟨⟨notes, overrun⟩, hnotes⟩ := describeMismatches_ok limit fun m hm =>
    ⟨(hover.found m hm).formula, (hover.found m hm).namedIn hhead⟩
  rw [onOutcome, hnotes]
  simp only [bind, Except.bind]
  split
  · exact ⟨_, rfl, .declined ..⟩
  rw [Rewrite.unwrap]
  cases hstatus : outcome.status with
  | mismatch | unbound => exact ⟨_, rfl, .declined ..⟩
  | ok result =>
    have hresult := hover.result hstatus
    obtain ⟨text, htext⟩ := Node.text_formula hresult.formula (hresult.namedIn hhead)
    dsimp only
    split
    · exact ⟨_, rfl, .declined ..⟩
    · rw [htext]
      exact ⟨_, rfl, .rewritten notes events hread hchain hstatus hresult.formula htext⟩

theorem answers_application {target rule : Node} (hrules : session.rules.HoldsFormulas)
    (hread : line.read.outcome = .ok (.application target rule))
    (hhead : (Rewrite.links target rule).1.IsFormula)
    (hnamed : (Rewrite.links target rule).1.NamedIn line.read.stream.symbols)
    (hlinks : ∀ r ∈ (Rewrite.links target rule).2,
      Rewrite.IsLink line.read.stream.symbols r) :
    ∃ turn, onApplication limit session line line.read.stream.symbols target rule = .ok turn ∧
      Answers limit session line turn := by
  rw [onApplication]
  split
  · exact ⟨_, rfl, .declined ..⟩
  · rcases Rewrite.chain_over session.strict hrules hlinks hhead with
      ⟨outcome, hchain, hover⟩ | ⟨name, hchain⟩
    · rw [hchain]
      exact answers_outcome _ hread hchain hnamed hover
    · rw [hchain]
      exact ⟨_, rfl, .declined ..⟩

/-- **Every line has an answer**, and it is one of the four. -/
theorem answer_total (hrules : session.rules.HoldsFormulas) (limit : Limit) (line : Line) :
    ∃ turn, session.answer limit line = .ok turn ∧ Answers limit session line turn := by
  cases hread : line.read.outcome with
  | error failure =>
    rw [answer]
    split
    · exact ⟨_, rfl, .declined ..⟩
    · rw [hread]
      exact answers_failure hread
  | ok n =>
    have hshape := Grammar.read_shape hread
    cases hshape with
    | formula hn hnamed => exact answers_formula hread hn hnamed
    | application hhead hnamed hlinks =>
      rw [answer]
      split
      · exact ⟨_, rfl, .declined ..⟩
      · rw [hread]
        exact answers_application hrules hread hhead hnamed hlinks
    | binding hname hlhs hrhs hlnamed hrnamed =>
      rw [answer]
      split
      · exact ⟨_, rfl, .declined ..⟩
      · rw [hread]
        exact answers_binding hread hname hlhs hrhs hlnamed hrnamed

theorem process_total (hrules : session.rules.HoldsFormulas) (limit : Limit) (text : String) :
    ∃ turn, session.process text limit = .ok turn ∧
      Answers limit session (.ofText text session.previous) turn :=
  answer_total hrules limit _

theorem answers_of_process (hrules : session.rules.HoldsFormulas) {text : String} {turn : Turn}
    (h : session.process text limit = .ok turn) :
    Answers limit session (.ofText text session.previous) turn := by
  obtain ⟨turn', hprocess, hanswers⟩ := process_total hrules limit text
  rw [h] at hprocess
  cases hprocess
  exact hanswers

/-- Answers keep the rules equivalences of formulas. -/
theorem Answers.holdsFormulas {turn : Turn} (h : Answers limit session line turn)
    (hrules : session.rules.HoldsFormulas) : turn.session.rules.HoldsFormulas := by
  cases h with
  | bound _ _ hrule => exact hrules.insert hrule _
  | declined | rewritten | table => exact hrules

/-- Every answer can be shown. -/
theorem Answers.render_ok {turn : Turn} (h : Answers limit session line turn) (s : Session) :
    ∃ text, { turn with session := s }.render = .ok text := by
  cases h with
  | declined | bound | rewritten => exact ⟨_, rfl⟩
  | @table n t text hread hn _ ht _ =>
    obtain ⟨t', ht', -, hatoms, htabulates, -⟩ :=
      TruthTable.ofFormula_tabulates hn line.read.stream.symbols
    rw [ht] at ht'
    cases ht'
    have hnamed : n.NamedIn line.read.stream.symbols := by
      have hshape := Grammar.read_shape hread
      cases hshape with
      | formula _ hnamed => exact hnamed
      | application | binding => cases hn
    have hatomsNamed : ∀ i ∈ t.atoms, (t.symbols.name? i).isSome := by
      intro i hi
      rw [hatoms, TruthTable.mem_insertAll] at hi
      rw [TruthTable.ofFormula_symbols ht]
      exact hnamed i (hi.resolve_left nofun)
    obtain ⟨shown, hshown⟩ := TruthTable.text_ok htabulates hatomsNamed s.display
    exact ⟨_, by rw [Turn.render]; simp only [hshown]; rfl⟩

end Session

end Propositional
