/-
Where reading stops. The machine takes tokens as long as they belong to the statement, and is
shown one more, unless the input ends: the token that does not belong to it. So what has been
pulled from the source is known together with what is left in the stream (`parse_halts`): all
diagnostics before that token have been met, and none behind it. A list of tokens is the case
in which there are none (`parse_ofTokens`).
-/
import Propositional.Proofs.Grammar.Machine

namespace Propositional

open Propositional.Parser

namespace Grammar

variable {symbols : Symbols}

theorem kind_of_fail {s : State} {t : Token} {failure : Failure} (hvalue : s.value = none)
    (h : s.step t = .fail failure) : t.kind ≠ .identifier := by
  intro hkind
  rw [State.step, hvalue] at h
  dsimp only at h
  rw [State.onOperand, hkind] at h
  cases h

/-- How a run within a statement ends: with the input, or at a token that the statement does
not take. Such a token is still to be taken, unless it came where an operand was due. -/
inductive Stops (s : State) (diagnostics : List Diagnostic) (lexemes : List Lexeme)
    (reading : Reading) : Prop
  | input (s' : State) : Shifts s (Lexeme.tokens lexemes) s' → reading.outcome = s'.finish →
      reading.stream = ⟨none, [], s'.symbols, diagnostics ++ Lexeme.diagnostics lexemes⟩ →
      Stops s diagnostics lexemes reading
  | done (s' : State) (before after : List Lexeme) (t : Token) (result : Node) :
      lexemes = before ++ .token t :: after → Shifts s (Lexeme.tokens before) s' →
      s'.step t = .done result → reading.outcome = .ok result →
      reading.stream = ⟨some t, after, s'.symbols, diagnostics ++ Lexeme.diagnostics before⟩ →
      Stops s diagnostics lexemes reading
  | fail (s' : State) (before after : List Lexeme) (t : Token) (failure : Failure)
      (pending : Option Token) :
      lexemes = before ++ .token t :: after → Shifts s (Lexeme.tokens before) s' →
      s'.step t = .fail failure → reading.outcome = .error failure →
      (pending = some t ∨ pending = none ∧ t.kind ≠ .identifier) →
      reading.stream = ⟨pending, after, s'.symbols, diagnostics ++ Lexeme.diagnostics before⟩ →
      Stops s diagnostics lexemes reading

/-- By induction on the source: each piece is passed over, taken, or the end of the run. -/
theorem run_stops {s : State} (hs : s.context.isPlace) (diagnostics : List Diagnostic)
    (lexemes : List Lexeme) : Stops s diagnostics lexemes (run s diagnostics lexemes) := by
  induction lexemes generalizing s diagnostics with
  | nil => exact .input s (.nil s) rfl (by simp [run, Lexeme.diagnostics])
  | cons lexeme rest ih =>
    have hsettled := State.settled?_eq_none hs
    cases lexeme with
    | malformed d =>
      have hlater : ∀ lexemes, diagnostics ++ [d] ++ Lexeme.diagnostics lexemes =
          diagnostics ++ Lexeme.diagnostics (.malformed d :: lexemes) := by
        intro lexemes
        rw [List.append_assoc]
        rfl
      rw [run, hsettled]
      cases ih hs (diagnostics ++ [d]) with
      | input s' hrun ho hstream => exact .input s' hrun ho (hlater rest ▸ hstream)
      | done s' before after t result hrest hrun hstep ho hstream =>
        exact .done s' (.malformed d :: before) after t result (hrest ▸ rfl) hrun hstep ho
          (hlater before ▸ hstream)
      | fail s' before after t failure pending hrest hrun hstep ho hpending hstream =>
        exact .fail s' (.malformed d :: before) after t failure pending (hrest ▸ rfl) hrun hstep ho
          hpending (hlater before ▸ hstream)
    | token t =>
      have hnone : diagnostics ++ Lexeme.diagnostics [] = diagnostics := List.append_nil _
      rw [run, hsettled]
      dsimp only
      cases hstep : s.step t with
      | shift next =>
        cases ih (State.step_isPlace hs hstep) diagnostics with
        | input s' hrun ho hstream => exact .input s' (.cons hstep hrun) ho hstream
        | done s' before after t' result hrest hrun hstep' ho hstream =>
          exact .done s' (.token t :: before) after t' result (hrest ▸ rfl) (.cons hstep hrun) hstep'
            ho hstream
        | fail s' before after t' failure pending hrest hrun hstep' ho hpending hstream =>
          exact .fail s' (.token t :: before) after t' failure pending (hrest ▸ rfl)
            (.cons hstep hrun) hstep' ho hpending hstream
      | done result =>
        exact .done s [] rest t result rfl (.nil s) hstep rfl (by rw [hnone])
      | fail failure =>
        -- where an operand is due the token has been taken, elsewhere it has been looked at
        cases hvalue : s.value with
        | none =>
          exact .fail s [] rest t failure none rfl (.nil s) hstep rfl
            (.inr ⟨rfl, kind_of_fail hvalue hstep⟩) (by simp [hnone])
        | some value =>
          exact .fail s [] rest t failure (some t) rfl (.nil s) hstep rfl (.inl rfl) (by simp [hnone])

/-- The machine does not take the token, and this is the failure that reading ends with. -/
inductive Refuses (s : State) (t : Token) : Failure → Prop
  | fail {failure : Failure} : s.step t = .fail failure → Refuses s t failure
  | trailing {result : Node} : s.step t = .done result → Refuses s t (.trailing t)

/-- How reading a whole source as a statement ends. -/
inductive Halts (symbols : Symbols) (lexemes : List Lexeme) (reading : Reading) : Prop
  | input (s : State) : Shifts (.start .statement symbols) (Lexeme.tokens lexemes) s →
      reading.outcome = s.finish →
      reading.stream = ⟨none, [], s.symbols, Lexeme.diagnostics lexemes⟩ →
      Halts symbols lexemes reading
  | token (s : State) (before after : List Lexeme) (t : Token) (failure : Failure)
      (pending : Option Token) :
      lexemes = before ++ .token t :: after →
      Shifts (.start .statement symbols) (Lexeme.tokens before) s → Refuses s t failure →
      reading.outcome = .error failure →
      (pending = some t ∨ pending = none ∧ t.kind ≠ .identifier) →
      reading.stream = ⟨pending, after, s.symbols, Lexeme.diagnostics before⟩ →
      Halts symbols lexemes reading

/-- **Where reading a source stops, and what is left of it then.** -/
theorem parse_halts (lexemes : List Lexeme) (symbols : Symbols) :
    Halts symbols lexemes (Stream.ofLexemes lexemes symbols).parse := by
  have hstops := run_stops (s := .start .statement symbols) rfl [] lexemes
  have hread : (Stream.ofLexemes lexemes symbols).read .statement =
      run (.start .statement symbols) [] lexemes := rfl
  rw [← hread] at hstops
  cases hstops with
  | input s hrun ho hstream =>
    refine .input s hrun ?_ ?_ <;> rw [Stream.parse] <;> split
    next => exact ho
    next => rw [hstream]; exact ho
    next => exact hstream
    next => rw [hstream]; simp [Stream.peek, Stream.pull]
  | done s before after t result hlexemes hrun hstep ho hstream =>
    refine .token s before after t (.trailing t) (some t) hlexemes hrun (.trailing hstep) ?_
      (.inl rfl) ?_ <;> rw [Stream.parse, ho] <;> simp only [hstream] <;> rfl
  | fail s before after t failure pending hlexemes hrun hstep ho hpending hstream =>
    refine .token s before after t failure pending hlexemes hrun (.fail hstep) ?_ hpending ?_ <;>
      rw [Stream.parse, ho]
    · exact ho
    · exact hstream

end Grammar

namespace Parser

/-- How reading a whole statement ends. -/
inductive Parses (symbols : Symbols) (tokens : List Token) (reading : Reading) : Prop
  | input (s : State) : Shifts (.start .statement symbols) tokens s →
      reading.outcome = s.finish → reading.stream.symbols = s.symbols →
      Parses symbols tokens reading
  | fail (s : State) (before after : List Token) (t : Token) (failure : Failure) :
      tokens = before ++ t :: after → Shifts (.start .statement symbols) before s →
      s.step t = .fail failure → reading.outcome = .error failure →
      reading.stream.symbols = s.symbols → Parses symbols tokens reading
  | trailing (s : State) (before after : List Token) (t : Token) (result : Node) :
      tokens = before ++ t :: after → Shifts (.start .statement symbols) before s →
      s.step t = .done result → reading.outcome = .error (.trailing t) →
      reading.stream.symbols = s.symbols → Parses symbols tokens reading

theorem parse_ofTokens (tokens : List Token) (symbols : Symbols) :
    Parses symbols tokens (Stream.ofTokens tokens symbols).parse := by
  cases Grammar.parse_halts (tokens.map .token) symbols with
  | input s hrun ho hstream =>
    rw [Lexeme.tokens_map_token] at hrun
    exact .input s hrun ho (congrArg Stream.symbols hstream)
  | token s before after t failure pending hlexemes hrun hrefuses ho hpending hstream =>
    obtain ⟨first, rest, rfl, rfl, hrest⟩ := List.map_eq_append_iff.1 hlexemes
    obtain ⟨u, later, rfl, hu, rfl⟩ := List.map_eq_cons_iff.1 hrest
    cases hu
    rw [Lexeme.tokens_map_token] at hrun
    have hsymbols := congrArg Stream.symbols hstream
    cases hrefuses with
    | fail hstep => exact .fail s first later t failure rfl hrun hstep ho hsymbols
    | trailing hstep => exact .trailing s first later t _ rfl hrun hstep ho hsymbols

theorem shifts_of_parse {tokens : List Token} {symbols : Symbols} {n : Node}
    (h : (Stream.ofTokens tokens symbols).parse.outcome = .ok n) :
    ∃ s, Shifts (.start .statement symbols) tokens s ∧ s.finish = .ok n := by
  cases parse_ofTokens tokens symbols with
  | input s hrun ho => exact ⟨s, hrun, ho.symm.trans h⟩
  | fail _ _ _ _ _ _ _ _ ho | trailing _ _ _ _ _ _ _ _ ho => cases ho.symm.trans h

end Parser

end Propositional
