/-
Sessions: what is kept between input lines, and what a line may be answered with.
-/
import Propositional.Lexeme
import Propositional.Rewriting.Rewrite
import Propositional.TruthTable.Layout

namespace Propositional

/-- The text that `ans` stands for, the rules bound so far, how truth values are
shown, and whether matching is strict. -/
structure Session where
  previous : String
  rules : RuleStore
  display : DisplayMode
  strict : Bool
  deriving DecidableEq

namespace Session

def fresh : Session := ⟨"", .empty, .bits, false⟩

instance : Inhabited Session := ⟨fresh⟩

def toggleDisplay (s : Session) : Session := { s with display := s.display.toggled }

def setStrict (s : Session) (strict : Bool) : Session := { s with strict := strict }

end Session

/-- Whether a line could not be read or could not be rewritten. -/
inductive Complaint
  | reading
  | rewriting
  deriving DecidableEq, Repr, Inhabited

def Complaint.label : Complaint → String
  | reading => "syntax"
  | rewriting => "rewrite"

/-- The answer to a line: the truth table of a formula and the formula's text, the
text of a rewritten formula, the rule bound to a name, or why there is none of these. -/
inductive Answer
  | table (table : TruthTable) (text : String)
  | rewritten (text : String)
  | bound (name text : String)
  | diagnostic (complaint : Complaint) (message : String)
  deriving DecidableEq

/-- What the log says about a line. -/
inductive Event
  | malformed (d : Diagnostic)
  | binding (name : String)
  | mismatch (m : Mismatch)
  | tooDeep (tokens : Nat)
  deriving DecidableEq, Repr

/-- An answer with its notes, the session after it, and what the log says of it. -/
structure Turn where
  answer : Answer
  notes : List String
  session : Session
  events : List Event
  deriving DecidableEq

end Propositional
