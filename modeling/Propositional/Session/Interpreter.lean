/-
One line in a session. A formula is tabulated and becomes the previous text, a
chain of rewrites is carried out and its result becomes the previous text, a
binding is stored. What cannot be read or rewritten is answered with a
diagnostic and changes nothing; neither does a line that is nested beyond the
limit.
-/
import Propositional.Parser.Stream
import Propositional.Rewriting.Depth
import Propositional.Session

namespace Propositional.Session

open Nesting (Limit)

/-- The message for a line beyond the limit. -/
def tooDeepMessage : String := "formula nested too deeply"

/-- A line as read: what `ans` stood for is in place. -/
structure Line where
  tokens : List Token
  diagnostics : List Diagnostic
  deriving DecidableEq

namespace Line

def ofText (line previous : String) : Line :=
  let lexemes := Lexeme.ofSource line previous
  ⟨Lexeme.tokens lexemes, Lexeme.diagnostics lexemes⟩

/-- The notes on malformed pieces, which come first. -/
def notes (line : Line) : List String := line.diagnostics.map Diagnostic.describe

def events (line : Line) : List Event := line.diagnostics.map .malformed

/-- The statement of the line, read with a symbol table of its own. -/
def read (line : Line) : Parser.Reading := (Parser.Stream.ofTokens line.tokens).parse

end Line

/-- An answer to `line` that leaves the session as it was. -/
def decline (session : Session) (line : Line) (complaint : Complaint) (message : String)
    (notes : List String) (events : List Event) : Turn :=
  ⟨.diagnostic complaint message, line.notes ++ notes, session, line.events ++ events⟩

/-- The answer to a line that goes beyond the limit. -/
def tooDeep (session : Session) (line : Line) (notes : List String) (events : List Event) : Turn :=
  decline session line .reading tooDeepMessage notes (events ++ [.tooDeep line.tokens.length])

/-- A line that could not be read. Some messages show a part of it. -/
def onFailure (limit : Limit) (session : Session) (line : Line) (symbols : Symbols)
    (failure : Parser.Failure) : Except Fault Turn := do
  if failure.shownNode?.any limit.refusesText then
    return tooDeep session line [] []
  let message ← failure.message symbols
  return decline session line .reading message [] []

/-- A binding: `name := rule`. -/
def onBinding (limit : Limit) (session : Session) (line : Line) (symbols : Symbols)
    (target rule : Node) : Except Fault Turn := do
  let name ← target.text symbols
  if limit.refusesText rule then
    return tooDeep session line [] []
  let text ← rule.ruleText symbols
  let rules ← session.rules.bind name rule
  return ⟨.bound name (name ++ " := " ++ text), line.notes, { session with rules := rules },
    line.events ++ [.binding name]⟩

/-- The notes on mismatches, up to one whose expression goes beyond the limit, and
whether there is such a one. -/
def describeMismatches (limit : Limit) (symbols : Symbols) :
    List Mismatch → Except Fault (List String × Bool)
  | [] => .ok ([], false)
  | m :: rest => do
    if limit.refusesText m.found then
      return ([], true)
    let note ← m.describe symbols
    let (notes, overrun) ← describeMismatches limit symbols rest
    return (note :: notes, overrun)

/-- A chain of rewrites within the limit that ended with `outcome`. -/
def onOutcome (limit : Limit) (session : Session) (line : Line) (symbols : Symbols)
    (outcome : Rewrite) (events : List Event) : Except Fault Turn := do
  let (notes, overrun) ← describeMismatches limit symbols outcome.mismatches
  if overrun then
    return tooDeep session line notes events
  match outcome.unwrap with
  | .error fault => return decline session line .rewriting fault.message notes events
  | .ok result =>
    if limit.refusesText result then
      return tooDeep session line notes events
    let text ← result.text symbols
    return ⟨.rewritten text, line.notes ++ notes, { session with previous := text },
      line.events ++ events⟩

/-- A chain of rewrites. -/
def onApplication (limit : Limit) (session : Session) (line : Line) (symbols : Symbols)
    (target rule : Node) : Except Fault Turn := do
  match limit.bind (Rewrite.overrun · symbols session.rules session.strict target rule) with
  | some mismatches => return tooDeep session line [] (mismatches.map .mismatch)
  | none =>
    let steps := Rewrite.steps symbols session.rules session.strict target rule
    let events := (steps.flatMap (·.outcome.mismatches)).map Event.mismatch
    match Rewrite.chain symbols session.rules session.strict target rule with
    | .ok outcome => onOutcome limit session line symbols outcome events
    | .error (.undefinedRule name) =>
      return decline session line .rewriting (Fault.undefinedRule name).message [] events
    | .error fault => .error fault

/-- A formula. -/
def onFormula (limit : Limit) (session : Session) (line : Line) (symbols : Symbols)
    (formula : Node) : Except Fault Turn := do
  if limit.refusesTable formula || limit.refusesText formula then
    return tooDeep session line [] []
  let table ← TruthTable.ofFormula formula symbols
  let text ← formula.text symbols
  return ⟨.table table text, line.notes, { session with previous := text }, line.events⟩

/-- Answers a line that has been cut into tokens. -/
def answer (limit : Limit) (session : Session) (line : Line) : Except Fault Turn :=
  let reading := line.read
  let symbols := reading.stream.symbols
  if limit.exceededBy reading.depth then
    .ok (tooDeep session line [] [])
  else
    match reading.outcome with
    | .error failure => onFailure limit session line symbols failure
    | .ok (.binding target rule) => onBinding limit session line symbols target rule
    | .ok (.application target rule) => onApplication limit session line symbols target rule
    | .ok formula => onFormula limit session line symbols formula

/-- Answers a line of text. -/
def process (session : Session) (text : String) (limit : Limit := Nesting.standard) :
    Except Fault Turn :=
  session.answer limit (.ofText text session.previous)

end Propositional.Session

namespace Propositional.Turn

/-- The text shown for an answer: the notes, then what was answered. -/
def render (turn : Turn) : Except Fault String := do
  let shown ←
    match turn.answer with
    | .table table _ => table.text turn.session.display
    | .rewritten text => .ok text
    | .bound _ text => .ok ("bound " ++ text)
    | .diagnostic _ message => .ok message
  return "\n".intercalate (turn.notes ++ [shown])

end Propositional.Turn
