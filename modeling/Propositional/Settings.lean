/-
Settings from the environment: whether matching is strict, how truth values are
shown, and how much is logged. A variable that is unset, or holds nothing, or
something that is no setting, leaves the default.
-/
import Propositional.Session
import Propositional.Text.Lowercase

namespace Propositional

/-- The environment: variables and what they hold. -/
structure Environment where
  entries : List (String × String)
  deriving DecidableEq, Repr, Inhabited

def Environment.get? (env : Environment) (name : String) : Option String :=
  env.entries.lookup name

namespace Settings

/-- The words that set a flag, in lower case. -/
def setWords : List String := ["1", "true", "yes", "on"]

/-- A flag: any word but the ones that set it clears it, blanks leave the default. -/
def flag (env : Environment) (name : String) (default : Bool) : Bool :=
  match env.get? name with
  | none => default
  | some value =>
    let word := Text.trim value
    if word = "" then default else setWords.contains (Text.lowercase word)

/-- One of several choices, which are given in lower case. -/
def choice (env : Environment) (name : String) (choices : List String) (default : String) :
    String :=
  match env.get? name with
  | none => default
  | some value =>
    if value = "" then default
    else
      let word := Text.lowercase (Text.trim value)
      if choices.contains word then word else default

def strict (env : Environment) : Bool := flag env "PLOGIC_STRICT_MATCH" false

def display (env : Environment) : DisplayMode :=
  (DisplayMode.ofLabel? (choice env "PLOGIC_DISPLAY" ["bits", "bool"] "bits")).getD .bits

/-- The levels of importance of log records, the least important first. -/
inductive LogLevel
  | debug
  | info
  | warning
  | error
  | critical
  deriving DecidableEq, Repr, Inhabited

namespace LogLevel

/-- The word by which the environment chooses a level. -/
def word : LogLevel → String
  | debug => "debug"
  | info => "info"
  | warning => "warning"
  | error => "error"
  | critical => "critical"

def label : LogLevel → String
  | debug => "DEBUG"
  | info => "INFO"
  | warning => "WARNING"
  | error => "ERROR"
  | critical => "CRITICAL"

def all : List LogLevel := [debug, info, warning, error, critical]

end LogLevel

/-- The least level that is logged. -/
def logLevel (env : Environment) : LogLevel :=
  let word := choice env "PLOGIC_LOG_LEVEL" (LogLevel.all.map (·.word)) "warning"
  (LogLevel.all.find? (·.word == word)).getD .warning

end Settings

/-- A new session under the settings of an environment. -/
def Session.ofEnvironment (env : Environment) : Session :=
  { Session.fresh with display := Settings.display env, strict := Settings.strict env }

end Propositional
