/-
Calls on one stream, in any order, whether they fail or not. The tokens not taken yet are
`Stream.left`: the token that was looked at, then those behind it. Every call takes some of
them from the front and leaves the others (`perform_left`). Of the stream, it depends on them
and on the names alone: where these are the same it answers the same, takes the same and leaves
the same (`Alike.perform`). A look leaves them as they are (`perform_look`), so that streams
remain alike when one of them is looked at and the other is not.
-/
import Propositional.Proofs.Grammar.Halting

namespace Propositional.Parser

/-- The tokens that a run takes: those it shifts, and the one that can begin no operand. -/
def taken (state : State) : List Token → List Token
  | [] => []
  | t :: rest =>
    match state.settled? with
    | some _ => []
    | none =>
      match state.step t with
      | .shift next => t :: taken next rest
      | .done _ => []
      | .fail _ => if state.value.isSome then [] else [t]

/-- What can be asked of a stream. The phrases that are read are operands, negated operands,
formulas and statements; nothing here depends on which. -/
inductive Call
  | peek
  | peekKind
  | advance
  | read (context : Context)
  deriving DecidableEq, Repr

/-- The calls that only look ahead. -/
def Call.isLook : Call → Bool
  | peek | peekKind => true
  | advance | read _ => false

inductive Answer
  | token (t : Option Token)
  | kind (kind : Option Token.Kind)
  | phrase (outcome : Except Failure Node)

/-- How a call went: its answer, the tokens that it took and the names known when it ended.
The wording of a failure is made of the failure and these names. -/
structure Event where
  call : Call
  answer : Answer
  consumed : List Token
  symbols : Symbols

namespace Stream

/-- The tokens that have not been taken. -/
def left (s : Stream) : List Token := s.pending.toList ++ Lexeme.tokens s.rest

def perform (s : Stream) : Call → Answer × Stream
  | .peek => (.token s.peek.1, s.peek.2)
  | .peekKind => (.kind s.peekKind.1, s.peekKind.2)
  | .advance => (.token s.advance.1, s.advance.2)
  | .read context => (.phrase (s.read context).outcome, (s.read context).stream)

/-- The tokens that a call takes. -/
def consumes (s : Stream) : Call → List Token
  | .peek | .peekKind => []
  | .advance => s.advance.1.toList
  | .read context => taken (.start context s.symbols) s.left

def event (s : Stream) (call : Call) : Event :=
  ⟨call, (s.perform call).1, s.consumes call, (s.perform call).2.symbols⟩

/-- The stream after some calls. -/
def after (s : Stream) : List Call → Stream
  | [] => s
  | call :: calls => (s.perform call).2.after calls

/-- How some calls go, one after the other. -/
def log (s : Stream) : List Call → List Event
  | [] => []
  | call :: calls => s.event call :: (s.perform call).2.log calls

/-! ## Nothing is lost -/

theorem pull_tokens (lexemes : List Lexeme) :
    (pull lexemes).1.toList ++ Lexeme.tokens (pull lexemes).2.1 = Lexeme.tokens lexemes := by
  induction lexemes with
  | nil => rfl
  | cons lexeme rest ih =>
    cases lexeme with
    | token t => rfl
    | malformed d => exact ih

theorem peek_left (s : Stream) : s.peek.1.toList ++ Lexeme.tokens s.peek.2.rest = s.left := by
  unfold peek left
  cases s.pending with
  | some t => rfl
  | none => exact pull_tokens s.rest

theorem peek_pending (s : Stream) : s.peek.2.pending = s.peek.1 := by
  unfold peek
  cases hpending : s.pending with
  | some t => exact hpending
  | none => rfl

end Stream

theorem run_takes (s : State) (tokens : List Token) :
    taken s tokens ++ (run s [] (tokens.map .token)).stream.left = tokens ∧
      (run s [] (tokens.map .token)).stream.symbols =
        s.symbols.afterTokens (taken s tokens) := by
  induction tokens generalizing s with
  | nil => exact ⟨rfl, rfl⟩
  | cons t rest ih =>
    have hwhole := congrArg (t :: ·) (Lexeme.tokens_map_token rest)
    rw [List.map_cons, run, taken]
    cases hsettled : s.settled? with
    | some value => exact ⟨hwhole, rfl⟩
    | none =>
      dsimp only
      cases hstep : s.step t with
      | shift next =>
        obtain ⟨hleft, hsymbols⟩ := ih next
        refine ⟨congrArg (t :: ·) hleft, hsymbols.trans ?_⟩
        rw [State.step_symbols hstep, ← Symbols.afterTokens_append, List.singleton_append]
      | done result => exact ⟨hwhole, rfl⟩
      | fail failure =>
        -- elsewhere than at the place of an operand the token was only looked at
        cases hvalue : s.value with
        | some value => exact ⟨hwhole, rfl⟩
        | none =>
          have hkind := Grammar.kind_of_fail hvalue hstep
          exact ⟨hwhole, (Symbols.afterTokens_sign _ hkind []).symm⟩

namespace Stream

/-- Reading goes by what is left, wherever the next token stands. -/
theorem read_alike (s : Stream) (context : Context) :
    (s.read context).Alike (run (.start context s.symbols) [] (s.left.map .token)) := by
  have hahead : Lexeme.tokens ((s.pending.map Lexeme.token).toList ++ s.rest) = s.left := by
    unfold left
    cases s.pending <;> rfl
  rw [← hahead]
  exact run_lexemes _ _ _ _

theorem read_takes (s : Stream) (context : Context) :
    s.consumes (.read context) ++ (s.read context).stream.left = s.left ∧
      (s.read context).stream.symbols = s.symbols.afterTokens (s.consumes (.read context)) := by
  have halike := read_alike s context
  have hrun := run_takes (.start context s.symbols) s.left
  rw [left, halike.pending, halike.rest, halike.symbols]
  exact hrun

/-- **One call takes tokens from the front and leaves the others.** -/
theorem perform_left (s : Stream) (call : Call) :
    s.consumes call ++ (s.perform call).2.left = s.left := by
  have hpeek : s.peek.2.left = s.left := by rw [left, peek_pending, peek_left]
  cases call with
  | peek => exact hpeek
  | peekKind => exact hpeek
  | advance => exact peek_left s
  | read context => exact (read_takes s context).1

theorem after_left (s : Stream) (calls : List Call) :
    (s.log calls).flatMap (·.consumed) ++ (s.after calls).left = s.left := by
  induction calls generalizing s with
  | nil => rfl
  | cons call calls ih =>
    calc (s.log (call :: calls)).flatMap (·.consumed) ++ (s.after (call :: calls)).left
        = s.consumes call ++ (((s.perform call).2.log calls).flatMap (·.consumed) ++
            ((s.perform call).2.after calls).left) := by
          rw [log, List.flatMap_cons, List.append_assoc]
          rfl
      _ = s.left := by rw [ih, perform_left]

/-! ## Looking ahead makes no difference -/

/-- Streams with the same names and the same tokens left. -/
structure Alike (s s' : Stream) : Prop where
  symbols : s.symbols = s'.symbols
  left : s.left = s'.left

variable {s s' : Stream}

theorem peek_head (s : Stream) : s.peek.1 = s.left.head? := by
  rw [peek_fst, left]
  cases s.pending <;> rfl

theorem perform_look {call : Call} (h : call.isLook) (s : Stream) :
    (s.perform call).2.Alike s := by
  have hleft := perform_left s call
  cases call with
  | peek => exact ⟨peek_symbols s, hleft⟩
  | peekKind => exact ⟨peek_symbols s, hleft⟩
  | advance | read => cases h

theorem Alike.perform (h : s.Alike s') (call : Call) :
    s.event call = s'.event call ∧ (s.perform call).2.Alike (s'.perform call).2 := by
  have hpeek : s.peek.1 = s'.peek.1 := by rw [peek_head, peek_head, h.left]
  have hanswer : (s.perform call).1 = (s'.perform call).1 := by
    cases call with
    | peek | advance => exact congrArg Answer.token hpeek
    | peekKind => exact congrArg (fun t : Option Token => Answer.kind (t.map (·.kind))) hpeek
    | read context =>
      have hread := (read_alike s context).outcome
      rw [h.symbols, h.left] at hread
      exact congrArg Answer.phrase (hread.trans (read_alike s' context).outcome.symm)
  have hconsumes : s.consumes call = s'.consumes call := by
    cases call with
    | peek | peekKind => rfl
    | advance => exact congrArg Option.toList hpeek
    | read context => rw [consumes, consumes, h.symbols, h.left]
  have hsymbols : (s.perform call).2.symbols = (s'.perform call).2.symbols := by
    cases call with
    | peek | peekKind | advance =>
      exact (peek_symbols s).trans (h.symbols.trans (peek_symbols s').symm)
    | read context =>
      have hread := (read_takes s context).2
      rw [h.symbols, hconsumes] at hread
      exact hread.trans (read_takes s' context).2.symm
  refine ⟨by rw [event, event, hanswer, hconsumes, hsymbols], hsymbols, ?_⟩
  -- the same tokens were left, and the same ones of them have been taken
  have hleft := (perform_left s call).trans (h.left.trans (perform_left s' call).symm)
  rw [hconsumes] at hleft
  exact List.append_cancel_left hleft

theorem Alike.unlooked (h : s.Alike s') (calls : List Call) :
    (s.log calls).filter (!·.call.isLook) = s'.log (calls.filter (!·.isLook)) ∧
      (s.after calls).Alike (s'.after (calls.filter (!·.isLook))) := by
  induction calls generalizing s s' with
  | nil => exact ⟨rfl, h⟩
  | cons call calls ih =>
    cases hlook : call.isLook with
    | true =>
      have hstill : (s.perform call).2.Alike s' := by
        have hself := perform_look hlook s
        exact ⟨hself.symbols.trans h.symbols, hself.left.trans h.left⟩
      rw [List.filter_cons_of_neg (by simp [hlook]), log,
        List.filter_cons_of_neg (by simp [event, hlook])]
      exact ih hstill
    | false =>
      obtain ⟨hevent, hnext⟩ := h.perform call
      rw [List.filter_cons_of_pos (by simp [hlook]), log,
        List.filter_cons_of_pos (by simp [event, hlook]), hevent]
      obtain ⟨hlog, hafter⟩ := ih hnext
      exact ⟨congrArg (s'.event call :: ·) hlog, hafter⟩

/-- **A stream never loses, repeats or reorders a token, and looking ahead is not observed.**
After any calls, failed ones included, the tokens taken by them, followed by the token looked
at, if there is one, and by the tokens behind it, are the tokens of the stream. Without the
calls that look ahead, the other calls take the same tokens and have the same answers, failures
included, and after each of them and at the end the names are the same. -/
theorem calls_keep_tokens (tokens : List Token) (symbols : Symbols) (calls : List Call) :
    let start := ofTokens tokens symbols
    let others := calls.filter (!·.isLook)
    (start.log calls).flatMap (·.consumed) ++
        ((start.after calls).pending.toList ++ Lexeme.tokens (start.after calls).rest) = tokens ∧
      (start.after calls).pending.toList.length ≤ 1 ∧
      (start.log calls).filter (!·.call.isLook) = start.log others ∧
      (start.after calls).symbols = (start.after others).symbols := by
  intro start others
  have hstart : start.left = tokens := Lexeme.tokens_map_token tokens
  have halike : start.Alike start := ⟨rfl, rfl⟩
  obtain ⟨hlog, hafter⟩ := halike.unlooked calls
  refine ⟨(after_left start calls).trans hstart, ?_, hlog, hafter.symbols⟩
  cases (start.after calls).pending with
  | none => exact Nat.zero_le 1
  | some t => exact Nat.le_refl 1

/-- An identifier where a parenthesis should close stays to be read. A closing parenthesis where
an operand is due does not. -/
example :
    ((ofTokens [⟨.opening, "("⟩, ⟨.identifier, "p"⟩, ⟨.identifier, "q"⟩, ⟨.closing, ")"⟩]).log
      [.read .statement, .read .negated, .read .formula]).map (·.consumed) =
      [[⟨.opening, "("⟩, ⟨.identifier, "p"⟩], [⟨.identifier, "q"⟩], [⟨.closing, ")"⟩]] := by
  decide

end Stream

end Propositional.Parser
