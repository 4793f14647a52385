/-
Token streams: a source that is read phrase by phrase, with at most one token
looked at ahead. The source is read only as far as needed, so diagnostics
appear in a stream when the token behind them is looked at.
-/
import Propositional.Lexeme
import Propositional.Parser.Machine

namespace Propositional.Parser

/-- A source that is being read: a token looked at but not taken, what comes
after it, the names interned and the diagnostics met so far. -/
structure Stream where
  pending : Option Token
  rest : List Lexeme
  symbols : Symbols
  diagnostics : List Diagnostic
  deriving DecidableEq

namespace Stream

def ofLexemes (lexemes : List Lexeme) (symbols : Symbols := .empty) : Stream :=
  ⟨none, lexemes, symbols, []⟩

def ofTokens (tokens : List Token) (symbols : Symbols := .empty) : Stream :=
  ofLexemes (tokens.map .token) symbols

/-- The next token of the source, with what follows it and the diagnostics before it. -/
def pull : List Lexeme → Option Token × List Lexeme × List Diagnostic
  | [] => (none, [], [])
  | .token t :: rest => (some t, rest, [])
  | .malformed d :: rest =>
    let (t, rest, diagnostics) := pull rest
    (t, rest, d :: diagnostics)

/-- Looks at the next token without taking it. -/
def peek (s : Stream) : Option Token × Stream :=
  match s.pending with
  | some t => (some t, s)
  | none =>
    let (t, rest, diagnostics) := pull s.rest
    (t, { s with pending := t, rest := rest, diagnostics := s.diagnostics ++ diagnostics })

/-- The kind of the next token. -/
def peekKind (s : Stream) : Option Token.Kind × Stream :=
  let (t, s) := s.peek
  (t.map (·.kind), s)

/-- Takes the next token. -/
def advance (s : Stream) : Option Token × Stream :=
  let (t, s) := s.peek
  (t, { s with pending := none })

end Stream

/-- How reading a phrase ended: its tree or the reason for having none, where the
stream stands then, and how deep the machine was at its deepest. -/
structure Reading where
  outcome : Except Failure Node
  stream : Stream
  depth : Nat

/-- Runs the machine on a source. A token that ends the phrase stays to be
taken; one that cannot begin an operand is lost. -/
def run (state : State) (diagnostics : List Diagnostic) : List Lexeme → Reading
  | [] =>
    ⟨state.finish, ⟨none, [], state.symbols, diagnostics⟩, 0⟩
  | lexeme :: rest =>
    match state.settled? with
    | some value => ⟨.ok value, ⟨none, lexeme :: rest, state.symbols, diagnostics⟩, 0⟩
    | none =>
      match lexeme with
      | .malformed d => run state (diagnostics ++ [d]) rest
      | .token t =>
        match state.step t with
        | .shift next =>
          let reading := run next diagnostics rest
          { reading with depth := max next.depth reading.depth }
        | .done value => ⟨.ok value, ⟨some t, rest, state.symbols, diagnostics⟩, 0⟩
        | .fail failure =>
          let pending := if state.value.isSome then some t else none
          ⟨.error failure, ⟨pending, rest, state.symbols, diagnostics⟩, 0⟩

namespace Stream

/-- Reads a phrase. -/
def read (s : Stream) (context : Context) : Reading :=
  run (.start context s.symbols) s.diagnostics
    ((s.pending.map Lexeme.token).toList ++ s.rest)

/-- Reads a statement that takes up the whole source. -/
def parse (s : Stream) : Reading :=
  let reading := s.read .statement
  match reading.outcome with
  | .error _ => reading
  | .ok _ =>
    match reading.stream.peek with
    | (none, stream) => { reading with stream := stream }
    | (some t, stream) => { reading with outcome := .error (.trailing t), stream := stream }

end Stream

end Propositional.Parser
