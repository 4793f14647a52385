/-
The interactive loop. Blank lines and the words `help`, `toggle` and `quit` are
answered here; any other line goes to the session.
-/
import Propositional.Session.Interpreter
import Propositional.Text.Characters

namespace Propositional.Repl

def banner : String := "Welcome to the REPL of Plogic."

/-- The help text. -/
def usage : String :=
  "\n".intercalate [
    "Usage:",
    "   -------------------",
    "   | And     |  '&'  |",
    "   | Or      |  '|'  |",
    "   | Not     |  '~'  |",
    "   | Cond    |  '->' |",
    "   | Bi-Cond | '<->' |",
    "   -------------------",
    "   ---------------------------",
    "   | Rule       |    '=>'    |",
    "   | Binding    |    ':='    |",
    "   | Derivation | f => l = r |",
    "   ---------------------------",
    "   - help:   usage info",
    "   - toggle: switch between 0/1 and F/T",
    "   - ans:    previous answer",
    "   - quit:   exit repl"]

/-- What a line did: the text to show, or none if it ends the loop, the session
after it, and what the log says of it. -/
structure Response where
  shown : Option String
  session : Session
  events : List Event
  deriving DecidableEq

/-- Answers a line. Blanks at its ends do not count. -/
def respond (session : Session) (line : String) (limit : Nesting.Limit := Nesting.standard) :
    Except Fault Response :=
  let line := Text.trim line
  if line = "quit" then .ok ⟨none, session, []⟩
  else if line = "" then .ok ⟨some "", session, []⟩
  else if line = "help" then .ok ⟨some usage, session, []⟩
  else if line = "toggle" then
    let session := session.toggleDisplay
    .ok ⟨some ("display: " ++ session.display.label), session, []⟩
  else do
    let turn ← session.process line limit
    let shown ← turn.render
    return ⟨some shown, turn.session, turn.events⟩

/-- A shown text as it is printed: on lines of its own, or not at all if empty. -/
def printed (shown : String) : String := if shown = "" then "" else shown ++ "\n"

/-- What was printed, how many lines were asked for, the session at the end, and
the log. -/
structure Transcript where
  output : String
  reads : Nat
  session : Session
  events : List Event
  deriving DecidableEq

/-- Answers lines one after the other until one quits. -/
def evaluate (session : Session) (lines : List String)
    (limit : Nesting.Limit := Nesting.standard) : Except Fault Transcript :=
  match lines with
  | [] => .ok ⟨"", 0, session, []⟩
  | line :: rest => do
    let response ← respond session line limit
    match response.shown with
    | none => return ⟨"", 1, response.session, response.events⟩
    | some shown =>
      let after ← evaluate response.session rest limit
      return ⟨printed shown ++ after.output, after.reads + 1, after.session,
        response.events ++ after.events⟩

/-- The loop after its greeting. Each line is asked for with `prompt`; where the
input ends without `quit`, an empty line is printed. -/
def converse (prompt : String) (session : Session) (lines : List String)
    (limit : Nesting.Limit := Nesting.standard) : Except Fault Transcript :=
  match lines with
  | [] => .ok ⟨prompt ++ "\n", 1, session, []⟩
  | line :: rest => do
    let response ← respond session line limit
    match response.shown with
    | none => return ⟨prompt, 1, response.session, response.events⟩
    | some shown =>
      let after ← converse prompt response.session rest limit
      return ⟨prompt ++ printed shown ++ after.output, after.reads + 1, after.session,
        response.events ++ after.events⟩

/-- The whole loop over the lines of an input. -/
def run (prompt : String) (session : Session) (lines : List String)
    (limit : Nesting.Limit := Nesting.standard) : Except Fault Transcript := do
  let transcript ← converse prompt session lines limit
  return { transcript with output := banner ++ "\n" ++ usage ++ "\n" ++ transcript.output }

end Propositional.Repl
