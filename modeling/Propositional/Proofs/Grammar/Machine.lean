/-
Runs of the parsing machine. `Shifts` is a run in which every token belongs to
the phrase being read. A phrase that the machine takes whole, without refusing any
token of it, is read as what the machine then holds (`parse_of_shifts`); malformed
pieces between the tokens change nothing (`parse_ofLexemes`).
-/
import Propositional.Proofs.Interning
import Propositional.Parser.Stream

namespace Propositional.Parser

/-- The machine comes from one state to another by taking these tokens. -/
inductive Shifts : State → List Token → State → Prop
  | nil (s : State) : Shifts s [] s
  | cons {s s' s'' : State} {t : Token} {ts : List Token} :
      s.step t = .shift s' → Shifts s' ts s'' → Shifts s (t :: ts) s''

theorem Shifts.one {s s' : State} {t : Token} (h : s.step t = .shift s') : Shifts s [t] s' :=
  .cons h (.nil s')

theorem Shifts.trans {s s' s'' : State} {ts us : List Token} (h₁ : Shifts s ts s')
    (h₂ : Shifts s' us s'') : Shifts s (ts ++ us) s'' := by
  induction h₁ with
  | nil => exact h₂
  | cons h _ ih => exact .cons h (ih h₂)

@[simp] theorem State.withOperand_eq (s : State) (symbols : Symbols) (operand : Node)
    (frames : List Frame) :
    s.withOperand symbols operand frames =
      ⟨s.context, (negate operand frames).2, some (negate operand frames).1, symbols⟩ := rfl

/-- The contexts of formulas in statements: they do not end before a token is seen. -/
def Context.isPlace : Context → Bool
  | .operand | .negated | .formula => false
  | _ => true

theorem State.settled?_eq_none {s : State} (h : s.context.isPlace) : s.settled? = none := by
  obtain ⟨context, frames, value, symbols⟩ := s
  cases context <;> first | rfl | cases h

theorem State.afterFormula_shift {s s' : State} {value : Node} {t : Token}
    (h : s.afterFormula value t = .shift s') : s'.context.isPlace := by
  obtain ⟨context, frames, held, symbols⟩ := s
  cases context <;> simp only [afterFormula, enter] at h <;> (try split at h) <;> cases h <;> rfl

/-- A statement stays one. -/
theorem State.step_isPlace {s s' : State} {t : Token} (hs : s.context.isPlace)
    (h : s.step t = .shift s') : s'.context.isPlace := by
  unfold step at h
  split at h
  · unfold onOperator at h
    split at h
    · cases h
      exact hs
    · split at h
      · split at h
        · cases h
          exact hs
        · cases h
      · exact afterFormula_shift h
  · unfold onOperand at h
    split at h
    · cases h
      exact hs
    · split at h
      · cases h
      · cases h
        exact hs
    · cases h
      exact hs
    · cases h

theorem Shifts.isPlace {s s' : State} {ts : List Token} (h : Shifts s ts s')
    (hs : s.context.isPlace) : s'.context.isPlace := by
  induction h with
  | nil => exact hs
  | cons h _ ih => exact ih (State.step_isPlace hs h)

/-! ## Names -/

theorem State.afterFormula_symbols {s s' : State} {value : Node} {t : Token}
    (h : s.afterFormula value t = .shift s') : s'.symbols = s.symbols ∧ t.kind ≠ .identifier := by
  obtain ⟨context, frames, held, symbols⟩ := s
  obtain ⟨kind, text⟩ := t
  cases context <;> simp only [afterFormula, enter] at h <;> (try split at h) <;> cases h <;>
    simp_all

/-- A step interns the token's text if it is an identifier. -/
theorem State.step_symbols {s s' : State} {t : Token} (h : s.step t = .shift s') :
    s'.symbols = s.symbols.afterTokens [t] := by
  obtain ⟨kind, text⟩ := t
  unfold step at h
  split at h
  · simp only [onOperator] at h
    split at h
    · cases h
      rfl
    · split at h
      · split at h
        next hk =>
          cases hk
          cases h
          rfl
        next => cases h
      · obtain ⟨hsymbols, hk⟩ := afterFormula_symbols h
        rw [hsymbols, Symbols.afterTokens_sign _ hk]
        rfl
  · simp only [onOperand] at h
    split at h
    · cases h
      rfl
    · split at h
      · cases h
      · cases h
        rfl
    · cases h
      rfl
    · cases h

theorem Shifts.symbols {s s' : State} {ts : List Token} (h : Shifts s ts s') :
    s'.symbols = s.symbols.afterTokens ts := by
  induction h with
  | nil => rfl
  | @cons s s₁ s₂ t ts hstep _ ih =>
    rw [ih, State.step_symbols hstep, ← Symbols.afterTokens_append, List.singleton_append]

/-! ## Runs that take all tokens -/

/-- A run goes on behind the tokens that it takes. -/
theorem Shifts.run_append {s s' : State} {tokens : List Token} (h : Shifts s tokens s')
    (hs : s.context.isPlace) (diagnostics : List Diagnostic) (rest : List Lexeme) :
    (run s diagnostics (tokens.map .token ++ rest)).outcome = (run s' diagnostics rest).outcome ∧
      (run s diagnostics (tokens.map .token ++ rest)).stream =
        (run s' diagnostics rest).stream := by
  induction h with
  | nil => exact ⟨rfl, rfl⟩
  | cons hstep _ ih =>
    rw [List.map_cons, List.cons_append, run, State.settled?_eq_none hs]
    simp only [hstep]
    exact ih (State.step_isPlace hs hstep)

/-- A run that takes all tokens ends with the input. -/
theorem run_of_shifts {s s' : State} {tokens : List Token} (h : Shifts s tokens s')
    (hs : s.context.isPlace) (diagnostics : List Diagnostic) :
    (run s diagnostics (tokens.map .token)).outcome = s'.finish ∧
      (run s diagnostics (tokens.map .token)).stream = ⟨none, [], s'.symbols, diagnostics⟩ := by
  have hrun := h.run_append hs diagnostics []
  rwa [List.append_nil] at hrun

/-! ## Whole statements -/

theorem read_ofTokens (tokens : List Token) (symbols : Symbols) (context : Context) :
    (Stream.ofTokens tokens symbols).read context =
      run (.start context symbols) [] (tokens.map .token) := rfl

/-- A list of tokens is a statement if the machine takes them all and ends well. -/
theorem parse_of_shifts {tokens : List Token} {symbols : Symbols} {s : State} {n : Node}
    (h : Shifts (.start .statement symbols) tokens s) (hf : s.finish = .ok n) :
    (Stream.ofTokens tokens symbols).parse.outcome = .ok n ∧
      (Stream.ofTokens tokens symbols).parse.stream = ⟨none, [], s.symbols, []⟩ := by
  obtain ⟨ho, hstream⟩ := run_of_shifts h rfl []
  rw [hf] at ho
  simp only [Stream.parse, read_ofTokens, ho, hstream]
  exact ⟨rfl, rfl⟩

/-! ## Malformed pieces -/

/-- Readings of the same outcome and depth, with the same names, and with the same tokens
left. -/
structure Reading.Alike (r r' : Reading) : Prop where
  outcome : r.outcome = r'.outcome
  depth : r.depth = r'.depth
  symbols : r.stream.symbols = r'.stream.symbols
  pending : r.stream.pending = r'.stream.pending
  rest : Lexeme.tokens r.stream.rest = Lexeme.tokens r'.stream.rest

theorem State.finish_settled {s : State} {value : Node} (h : s.settled? = some value) :
    s.finish = .ok value := by
  unfold settled? at h
  split at h
  · next hcontext hframes hvalue =>
    rw [finish, hvalue, hframes, hcontext]
    exact congrArg _ (Option.some.inj h)
  · next hcontext hframes hvalue =>
    rw [finish, hvalue, hframes, hcontext]
    exact congrArg _ (Option.some.inj h)
  · cases h

/-- Where the phrase is complete already, nothing is read. -/
theorem run_settled {s : State} {value : Node} (h : s.settled? = some value)
    (diagnostics : List Diagnostic) (lexemes : List Lexeme) :
    run s diagnostics lexemes = ⟨.ok value, ⟨none, lexemes, s.symbols, diagnostics⟩, 0⟩ := by
  cases lexemes with
  | nil => rw [run, State.finish_settled h]
  | cons lexeme rest => cases lexeme <;> rw [run, h]

/-- A run passes over malformed pieces. -/
theorem run_lexemes (s : State) (diagnostics diagnostics' : List Diagnostic)
    (lexemes : List Lexeme) :
    (run s diagnostics lexemes).Alike
      (run s diagnostics' ((Lexeme.tokens lexemes).map .token)) := by
  induction lexemes generalizing s diagnostics with
  | nil => exact ⟨rfl, rfl, rfl, rfl, rfl⟩
  | cons lexeme rest ih =>
    cases hsettled : s.settled? with
    | some value =>
      rw [run_settled hsettled, run_settled hsettled]
      exact ⟨rfl, rfl, rfl, rfl, (Lexeme.tokens_map_token _).symm⟩
    | none =>
      cases lexeme with
      | malformed d =>
        rw [run, hsettled]
        exact ih s (diagnostics ++ [d])
      | token t =>
        have htokens : Lexeme.tokens (.token t :: rest) = t :: Lexeme.tokens rest := rfl
        rw [htokens, List.map_cons, run, run, hsettled]
        dsimp only
        cases hstep : s.step t with
        | shift next =>
          have h := ih next diagnostics
          exact ⟨h.outcome, congrArg (max next.depth) h.depth, h.symbols, h.pending, h.rest⟩
        | done result => exact ⟨rfl, rfl, rfl, rfl, (Lexeme.tokens_map_token _).symm⟩
        | fail failure => exact ⟨rfl, rfl, rfl, rfl, (Lexeme.tokens_map_token _).symm⟩

theorem pull_fst (lexemes : List Lexeme) :
    (Stream.pull lexemes).1 = (Lexeme.tokens lexemes).head? := by
  induction lexemes with
  | nil => rfl
  | cons lexeme rest ih =>
    cases lexeme with
    | token t => rfl
    | malformed d => exact ih

theorem peek_fst (s : Stream) : s.peek.1 = s.pending.or (Lexeme.tokens s.rest).head? := by
  rw [Stream.peek]
  cases s.pending with
  | some t => rfl
  | none => exact pull_fst s.rest

theorem peek_symbols (s : Stream) : s.peek.2.symbols = s.symbols := by
  rw [Stream.peek]
  cases s.pending <;> rfl

/-- How reading a whole source ends, from how reading its statement ends. -/
theorem parse_eq_of_read (s : Stream) :
    s.parse.depth = (s.read .statement).depth ∧
      s.parse.stream.symbols = (s.read .statement).stream.symbols ∧
      s.parse.outcome =
        match (s.read .statement).outcome, (s.read .statement).stream.peek.1 with
        | .ok _, some t => .error (.trailing t)
        | outcome, _ => outcome := by
  rw [Stream.parse]
  cases ho : (s.read .statement).outcome with
  | error failure => exact ⟨rfl, rfl, ho⟩
  | ok n =>
    have hsymbols := peek_symbols (s.read .statement).stream
    generalize (s.read .statement).stream.peek = peeked at hsymbols
    obtain ⟨_ | t, stream⟩ := peeked <;> exact ⟨rfl, hsymbols, rfl⟩

/-- What is read of a source is what is read of its tokens. -/
theorem parse_ofLexemes (lexemes : List Lexeme) (symbols : Symbols) :
    (Stream.ofLexemes lexemes symbols).parse.outcome =
        (Stream.ofTokens (Lexeme.tokens lexemes) symbols).parse.outcome ∧
      (Stream.ofLexemes lexemes symbols).parse.stream.symbols =
        (Stream.ofTokens (Lexeme.tokens lexemes) symbols).parse.stream.symbols ∧
      (Stream.ofLexemes lexemes symbols).parse.depth =
        (Stream.ofTokens (Lexeme.tokens lexemes) symbols).parse.depth := by
  have halike : ((Stream.ofLexemes lexemes symbols).read .statement).Alike
      ((Stream.ofTokens (Lexeme.tokens lexemes) symbols).read .statement) :=
    run_lexemes _ [] [] lexemes
  obtain ⟨hdepth, hsymbols, houtcome⟩ := parse_eq_of_read (Stream.ofLexemes lexemes symbols)
  obtain ⟨hdepth', hsymbols', houtcome'⟩ :=
    parse_eq_of_read (Stream.ofTokens (Lexeme.tokens lexemes) symbols)
  refine ⟨?_, ?_, ?_⟩
  · rw [houtcome, houtcome', peek_fst, peek_fst, halike.outcome, halike.pending, halike.rest]
  · rw [hsymbols, hsymbols', halike.symbols]
  · rw [hdepth, hdepth', halike.depth]

end Propositional.Parser
