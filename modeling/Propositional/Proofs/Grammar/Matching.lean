/-
Other tokens for the same statement. Of a token the machine looks at the kind, and of an identifier
at the text, but at that only to find it among the names. So two lists of tokens that correspond
one by one, with identifiers renamed so that different ones stay different, take the machine
through the same states but for the names in the table (`step_renamed`), and a statement is read
from both in the same way, up to the same failure (`parse_renamed`). This holds whatever relation
between tokens is taken for corresponding (`Matching`): renaming alone, or another spelling of
signs alone.
-/
import Mathlib.Data.List.Forall2
import Propositional.Proofs.Grammar.Halting

namespace Propositional

/-- Different names of a list stay different. -/
def KeepsApart (ρ : String → String) (names : List String) : Prop :=
  ∀ a ∈ names, ∀ b ∈ names, ρ a = ρ b → a = b

theorem KeepsApart.mono {ρ : String → String} {names others : List String}
    (h : KeepsApart ρ names) (hsub : ∀ a ∈ others, a ∈ names) : KeepsApart ρ others :=
  fun a ha b hb => h a (hsub a ha) b (hsub b hb)

namespace Symbols

variable {ρ : String → String} {s s' : Symbols} {name : String}

theorem position_map {names : List String} (hρ : KeepsApart ρ (name :: names)) :
    position (ρ name) (names.map ρ) = position name names := by
  induction names with
  | nil => rfl
  | cons n rest ih =>
    have hsame : ρ n = ρ name ↔ n = name :=
      ⟨hρ n (by simp) name (by simp), congrArg ρ⟩
    have hrest := ih (hρ.mono fun a ha => by
      rcases List.mem_cons.1 ha with rfl | ha
      · exact List.mem_cons_self
      · exact List.mem_cons_of_mem _ (List.mem_cons_of_mem _ ha))
    simp only [List.map_cons, position, hsame, hrest]

theorem intern_renamed (hs : s'.names = s.names.map ρ) (hρ : KeepsApart ρ (name :: s.names)) :
    (s'.intern (ρ name)).1 = (s.intern name).1 ∧
      (s'.intern (ρ name)).2.names = (s.intern name).2.names.map ρ := by
  by_cases h : name ∈ s.names
  · have h' : ρ name ∈ s'.names := hs ▸ List.mem_map_of_mem h
    rw [intern_known h, intern_known h']
    refine ⟨?_, hs⟩
    rw [intern, intern, dif_pos h, dif_pos h', index?, index?, hs, position_map hρ]
  · have h' : ρ name ∉ s'.names := by
      rw [hs]
      rintro hmem
      obtain ⟨other, hother, hsame⟩ := List.mem_map.1 hmem
      obtain rfl := hρ other (List.mem_cons_of_mem _ hother) name List.mem_cons_self hsame
      exact h hother
    obtain ⟨hindex, hnames⟩ := intern_new h
    obtain ⟨hindex', hnames'⟩ := intern_new h'
    rw [hindex, hnames, hindex', hnames', hs, List.map_append, size, size, hs, List.length_map]
    exact ⟨rfl, rfl⟩

end Symbols

namespace Token

/-- A relation between tokens under which the kinds of tokens are the same, and identifiers are
renamed. -/
structure Matching (ρ : String → String) (R : Token → Token → Prop) : Prop where
  kind {t u : Token} : R t u → u.kind = t.kind
  text {t u : Token} : R t u → t.kind = .identifier → u.text = ρ t.text

end Token

namespace Parser

variable {ρ : String → String} {R : Token → Token → Prop}

/-- The token that the wording of a failure shows, if it shows one. -/
def Failure.shownToken? : Failure → Option Token
  | noOperand found => found
  | ruleWithoutEquals found | trailing found => some found
  | unclosedParen | notBindable _ | bindingWithoutEquals | notRuleName _ => none

/-- The same failure, at tokens that correspond. -/
inductive Failure.Same (R : Token → Token → Prop) : Failure → Failure → Prop
  | noOperand {t u : Token} : R t u → Same R (.noOperand (some t)) (.noOperand (some u))
  | ruleWithoutEquals {t u : Token} : R t u → Same R (.ruleWithoutEquals t) (.ruleWithoutEquals u)
  | trailing {t u : Token} : R t u → Same R (.trailing t) (.trailing u)
  | plain {failure : Failure} : failure.shownToken? = none → Same R failure failure

/-- States that differ in the names of atoms alone. -/
inductive State.Renamed (ρ : String → String) : State → State → Prop
  | mk {context : Context} {frames : List Frame} {value : Option Node} {symbols symbols' : Symbols} :
      symbols'.names = symbols.names.map ρ →
      Renamed ρ ⟨context, frames, value, symbols⟩ ⟨context, frames, value, symbols'⟩

/-- The same verdict, but for the names of atoms. -/
inductive Verdict.Same (ρ : String → String) (R : Token → Token → Prop) :
    Verdict → Verdict → Prop
  | shift {s s' : State} : s.Renamed ρ s' → Same ρ R (.shift s) (.shift s')
  | done (result : Node) : Same ρ R (.done result) (.done result)
  | fail {failure failure' : Failure} :
      failure.Same R failure' → Same ρ R (.fail failure) (.fail failure')

/-- The same outcome, but for the tokens shown. -/
inductive SameOutcome (R : Token → Token → Prop) :
    Except Failure Node → Except Failure Node → Prop
  | ok (n : Node) : SameOutcome R (.ok n) (.ok n)
  | error {failure failure' : Failure} :
      failure.Same R failure' → SameOutcome R (.error failure) (.error failure')

variable {s s' : State} {t u : Token}

theorem State.afterFormula_renamed (hR : Token.Matching ρ R) (hs : s.Renamed ρ s') (htu : R t u)
    (value : Node) : Verdict.Same ρ R (s.afterFormula value t) (s'.afterFormula value u) := by
  obtain ⟨kind, a⟩ := t
  obtain ⟨kind', b⟩ := u
  obtain rfl : kind' = kind := hR.kind htu
  obtain ⟨hnames⟩ := hs
  rename_i context frames held symbols symbols'
  cases context with
  | operand | negated | formula | bindingRhs => exact .done _
  | statement =>
    simp only [afterFormula]
    split
    · exact .shift (.mk hnames)
    · exact .fail (.plain rfl)
    · exact .shift (.mk hnames)
    · exact .done _
  | bindingLhs target =>
    simp only [afterFormula]
    split
    · exact .shift (.mk hnames)
    · exact .fail (.plain rfl)
  | ruleLhs target =>
    simp only [afterFormula]
    split
    · exact .shift (.mk hnames)
    · exact .fail (.ruleWithoutEquals htu)
  | ruleRhs target lhs =>
    simp only [afterFormula]
    split
    · exact .shift (.mk hnames)
    · exact .done _

theorem State.step_renamed (hR : Token.Matching ρ R) (hs : s.Renamed ρ s') (htu : R t u)
    (hρ : t.kind = .identifier → KeepsApart ρ (t.text :: s.symbols.names)) :
    Verdict.Same ρ R (s.step t) (s'.step u) := by
  have hsame := hs
  obtain ⟨hnames⟩ := hs
  rename_i context frames held symbols symbols'
  obtain ⟨kind, a⟩ := t
  obtain ⟨kind', b⟩ := u
  obtain rfl : kind' = kind := hR.kind htu
  cases held with
  | some value =>
    simp only [step, onOperator]
    split
    · exact .shift (.mk hnames)
    · split
      · split
        · exact .shift (.mk hnames)
        · exact .fail (.plain rfl)
      · exact afterFormula_renamed hR hsame htu _
  | none =>
    simp only [step, onOperand]
    split
    · obtain rfl : b = ρ a := hR.text htu rfl
      obtain ⟨hindex, hrenamed⟩ := Symbols.intern_renamed hnames (hρ rfl)
      rw [hindex]
      exact .shift (.mk hrenamed)
    · split
      · exact .fail (.noOperand htu)
      · exact .shift (.mk hnames)
    · exact .shift (.mk hnames)
    · exact .fail (.noOperand htu)

theorem State.settled?_renamed (hs : s.Renamed ρ s') : s'.settled? = s.settled? := by
  cases hs
  rfl

theorem State.finish_renamed (hs : s.Renamed ρ s') : s'.finish = s.finish := by
  cases hs
  rfl

theorem State.sameOutcome_finish (R : Token → Token → Prop) (s : State) :
    SameOutcome R s.finish s.finish := by
  cases h : s.finish with
  | ok n => exact .ok n
  | error failure =>
    refine .error (.plain ?_)
    unfold finish at h
    split at h
    · cases h
      rfl
    · split at h
      · cases h
        rfl
      · unfold Context.finish at h
        split at h <;> (try split at h) <;> cases h <;> rfl

/-- What is known of a step into the rest of the tokens: their identifiers, with the names there
are, are among those before it. -/
theorem State.step_keepsApart {next : State} {rest : List Token} (h : s.step t = .shift next)
    (hρ : KeepsApart ρ (s.symbols.names ++ Token.identifiers (t :: rest))) :
    KeepsApart ρ (next.symbols.names ++ Token.identifiers rest) := by
  refine hρ.mono fun a ha => ?_
  rw [State.step_symbols h, Symbols.afterTokens, List.mem_append, Symbols.mem_internAll] at ha
  have hidentifiers : Token.identifiers (t :: rest) =
      Token.identifiers [t] ++ Token.identifiers rest := Token.identifiers_append [t] rest
  rw [hidentifiers]
  simpa [or_assoc] using ha

/-- Readings that are the same but for the names of atoms. -/
structure Reading.Same (ρ : String → String) (R : Token → Token → Prop) (r r' : Reading) :
    Prop where
  outcome : SameOutcome R r.outcome r'.outcome
  names : r'.stream.symbols.names = r.stream.symbols.names.map ρ
  depth : r'.depth = r.depth
  next : Option.Rel R r.stream.peek.1 r'.stream.peek.1

theorem head?_rel {tokens others : List Token} (h : List.Forall₂ R tokens others) :
    Option.Rel R tokens.head? others.head? := by
  cases h with
  | nil => exact .none
  | cons htu _ => exact .some htu

/-- By induction on the tokens: the states stay the same but for names. -/
theorem run_renamed (hR : Token.Matching ρ R) {tokens others : List Token}
    (h : List.Forall₂ R tokens others) (hs : s.Renamed ρ s')
    (hρ : KeepsApart ρ (s.symbols.names ++ Token.identifiers tokens)) :
    Reading.Same ρ R (run s [] (tokens.map .token)) (run s' [] (others.map .token)) := by
  have hnames : s'.symbols.names = s.symbols.names.map ρ := by
    cases hs with
    | mk hnames => exact hnames
  induction h generalizing s s' with
  | nil =>
    have houtcome := State.sameOutcome_finish R s
    refine ⟨?_, hnames, rfl, .none⟩
    rw [List.map_nil, run, run, State.finish_renamed hs]
    exact houtcome
  | @cons t u rest others htu hrest ih =>
    have hstep := State.step_renamed hR hs htu fun hkind => hρ.mono fun a ha => by
      rcases List.mem_cons.1 ha with rfl | ha
      · simp [Token.identifiers_cons, hkind]
      · exact List.mem_append_left _ ha
    have hvalue : s'.value = s.value := by
      cases hs
      rfl
    rw [List.map_cons, List.map_cons, run, run, State.settled?_renamed hs, hvalue]
    cases s.settled? with
    | some value => exact ⟨.ok value, hnames, rfl, .some htu⟩
    | none =>
      dsimp only
      generalize hverdict : s.step t = verdict at hstep
      generalize s'.step u = verdict' at hstep
      cases hstep with
      | shift hnext =>
        have hlater := ih hnext (State.step_keepsApart hverdict hρ) (by cases hnext; assumption)
        refine ⟨hlater.outcome, hlater.names, ?_, hlater.next⟩
        have hdepth := hlater.depth
        cases hnext
        simp only [hdepth, State.depth]
      | done result => exact ⟨.ok result, hnames, rfl, .some htu⟩
      | fail hfailure =>
        refine ⟨.error hfailure, hnames, rfl, ?_⟩
        rw [peek_fst, peek_fst]
        cases s.value with
        | some value => exact .some htu
        | none => simpa using head?_rel hrest

/-- **Tokens that correspond are read in the same way.** -/
theorem parse_renamed (hR : Token.Matching ρ R) {tokens others : List Token}
    (h : List.Forall₂ R tokens others) {symbols symbols' : Symbols}
    (hnames : symbols'.names = symbols.names.map ρ)
    (hρ : KeepsApart ρ (symbols.names ++ Token.identifiers tokens)) :
    SameOutcome R (Stream.ofTokens tokens symbols).parse.outcome
        (Stream.ofTokens others symbols').parse.outcome ∧
      (Stream.ofTokens others symbols').parse.stream.symbols.names =
        (Stream.ofTokens tokens symbols).parse.stream.symbols.names.map ρ ∧
      (Stream.ofTokens others symbols').parse.depth =
        (Stream.ofTokens tokens symbols).parse.depth := by
  have hread : Reading.Same ρ R ((Stream.ofTokens tokens symbols).read .statement)
      ((Stream.ofTokens others symbols').read .statement) := run_renamed hR h (.mk hnames) hρ
  obtain ⟨hdepth, hsymbols, houtcome⟩ := parse_eq_of_read (Stream.ofTokens tokens symbols)
  obtain ⟨hdepth', hsymbols', houtcome'⟩ := parse_eq_of_read (Stream.ofTokens others symbols')
  refine ⟨?_, by rw [hsymbols, hsymbols', hread.names], by rw [hdepth, hdepth', hread.depth]⟩
  rw [houtcome, houtcome']
  have hfound := hread.next
  have hstatement := hread.outcome
  generalize ((Stream.ofTokens tokens symbols).read .statement).outcome = outcome at hstatement
  generalize ((Stream.ofTokens others symbols').read .statement).outcome = outcome' at hstatement
  generalize ((Stream.ofTokens tokens symbols).read .statement).stream.peek.1 = found at hfound
  generalize ((Stream.ofTokens others symbols').read .statement).stream.peek.1 = found' at hfound
  cases hstatement with
  | ok n =>
    cases hfound with
    | some htu => exact .error (.trailing htu)
    | none => exact .ok n
  | error hfailure => exact .error hfailure

theorem SameOutcome.ok_iff {outcome outcome' : Except Failure Node}
    (h : SameOutcome R outcome outcome') (n : Node) : outcome' = .ok n ↔ outcome = .ok n := by
  cases h with
  | ok m => exact Iff.rfl
  | error _ =>
    constructor <;>
      · intro h
        cases h

theorem SameOutcome.of_error {outcome outcome' : Except Failure Node} {failure : Failure}
    (h : SameOutcome R outcome outcome') (hfailure : outcome = .error failure) :
    ∃ failure', outcome' = .error failure' ∧ failure.Same R failure' := by
  cases h with
  | ok m => cases hfailure
  | error hsame =>
    cases hfailure
    exact ⟨_, rfl, hsame⟩

end Parser

end Propositional
