/-
What can happen to a session, and the sessions that can come about that way. A
history lists what has happened in a run, with the answers given on the way.
-/
import Propositional.Session.Interpreter

namespace Propositional.Session

/-- One thing done with a session: a line is answered, the display is toggled, or
strictness is set. -/
inductive Action
  | line (text : String)
  | toggleDisplay
  | setStrict (strict : Bool)
  deriving DecidableEq, Repr, Inhabited

/-- The session after an action. -/
def act (limit : Nesting.Limit) (s : Session) : Action → Except Fault Session
  | .line text => do
    let turn ← s.process text limit
    return turn.session
  | .toggleDisplay => .ok s.toggleDisplay
  | .setStrict strict => .ok (s.setStrict strict)

/-- The session after actions taken one after the other. -/
def after (limit : Nesting.Limit) (s : Session) (actions : List Action) : Except Fault Session :=
  actions.foldlM (act limit) s

/-- The sessions that come about from `start`. -/
def ReachableFrom (limit : Nesting.Limit) (start s : Session) : Prop :=
  ∃ actions, after limit start actions = .ok s

/-- The sessions that come about from a fresh one. -/
def Reachable (limit : Nesting.Limit) (s : Session) : Prop := ReachableFrom limit fresh s

theorem reachable_fresh (limit : Nesting.Limit) : Reachable limit fresh := ⟨[], rfl⟩

/-- An action that has been taken; with a line, the session it was given to and
what became of it. -/
inductive Entry
  | answered (before : Session) (text : String) (turn : Turn)
  | toggledDisplay
  | setStrict (strict : Bool)
  deriving DecidableEq

/-- The run of a session from one state to another, entry by entry. -/
inductive History (limit : Nesting.Limit) : Session → List Entry → Session → Prop
  | nil (s : Session) : History limit s [] s
  | line {s s' : Session} {text : String} {turn : Turn} {entries : List Entry} :
      s.process text limit = .ok turn → History limit turn.session entries s' →
      History limit s (.answered s text turn :: entries) s'
  | toggleDisplay {s s' : Session} {entries : List Entry} :
      History limit s.toggleDisplay entries s' → History limit s (.toggledDisplay :: entries) s'
  | setStrict {s s' : Session} {strict : Bool} {entries : List Entry} :
      History limit (s.setStrict strict) entries s' →
      History limit s (.setStrict strict :: entries) s'

end Propositional.Session

namespace Propositional

/-- The text of the formula that was tabulated or that came of rewriting. -/
def Answer.text? : Answer → Option String
  | table _ text | rewritten text => some text
  | bound .. | diagnostic .. => none

namespace Session.Entry

def action : Entry → Action
  | answered _ text _ => .line text
  | toggledDisplay => .toggleDisplay
  | setStrict strict => .setStrict strict

/-- The text of the formula in the answer, if it has one. -/
def text? : Entry → Option String
  | answered _ _ turn => turn.answer.text?
  | toggledDisplay | setStrict _ => none

/-- The name that was bound, and the rule that the line bound it to. -/
def rule? : Entry → Option (String × Node)
  | answered before text turn =>
    match turn.answer, (Line.ofText text before.previous).read.outcome with
    | .bound name _, .ok (.binding _ rule) => some (name, rule)
    | _, _ => none
  | toggledDisplay | setStrict _ => none

def isToggle : Entry → Bool
  | toggledDisplay => true
  | answered .. | setStrict _ => false

def strict? : Entry → Option Bool
  | setStrict strict => some strict
  | answered .. | toggledDisplay => none

end Session.Entry

end Propositional
