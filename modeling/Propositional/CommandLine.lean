/-
The command line: options, and formulas to evaluate. Without formulas the
interactive loop runs on the standard input. Options may be shortened as long
as they stay unambiguous; formulas stand side by side, before or after all
options, and after `--` everything is a formula.
-/
import Propositional.Repl
import Propositional.Settings

namespace Propositional

/-- A record of the log: the part of the program it comes from, and what it says. -/
def Event.logger : Event → String
  | .malformed _ => "plogic.reader.lexer"
  | .binding _ => "plogic.rewriting.rule_store"
  | .mismatch _ => "plogic.rewriting.matcher"
  | .tooDeep _ => "plogic.interpreter"

def Event.message : Event → String
  | .malformed d => "lexical diagnostic: " ++ d.describe
  | .binding name => "binding rule " ++ name
  | .mismatch m =>
    mismatchMessage ++ " (" ++ m.reason.describe ++ "): " ++ m.found.describe
  | .tooDeep tokens => "recursion limit reached on " ++ toString tokens ++ " tokens"

/-- The line of the log for an event. -/
def Event.logLine (e : Event) : String := "DEBUG " ++ e.logger ++ ": " ++ e.message ++ "\n"

namespace CommandLine

/-- The options. -/
inductive Switch
  | help
  | strict
  | display
  deriving DecidableEq, Repr, Inhabited

/-- How the options are spelled. -/
def switches : List (String × Switch) :=
  [("-h", .help), ("--help", .help), ("--strict", .strict), ("--display", .display)]

/-- What an argument is: a formula, an option with what is attached to it, something
like an option, or the beginning of several options. -/
inductive Argument
  | formula (text : String)
  | switch (which : Switch) (attached : Option String)
  | unknown
  | ambiguous
  deriving DecidableEq, Repr, Inhabited

/-- A text in two, at the first `=`; the second part is missing where there is none. -/
def splitAtEquals (cs : List Char) : List Char × Option (List Char) :=
  match cs.dropWhile (· ≠ '=') with
  | [] => (cs, none)
  | _ :: rest => (cs.takeWhile (· ≠ '='), some rest)

/-- A minus sign before a decimal number, in the digits of any script; a line end may
follow. -/
def isNegativeNumber (cs : List Char) : Bool :=
  match cs with
  | '-' :: digits =>
    let digits := if digits.getLast? = some '\n' then digits.dropLast else digits
    let whole := digits.takeWhile Text.isDecimalDigit
    match digits.dropWhile Text.isDecimalDigit with
    | [] => !whole.isEmpty
    | '.' :: decimals => !decimals.isEmpty && decimals.all Text.isDecimalDigit
    | _ => false
  | _ => false

/-- An argument that is no option by its spelling: a formula, if it is a negative
number or has a space in it. -/
def otherwise (cs : List Char) : Argument :=
  if isNegativeNumber cs || cs.contains ' ' then .formula (String.ofList cs) else .unknown

/-- What an argument is. -/
def classify (argument : String) : Argument :=
  let cs := argument.toList
  match switches.lookup argument with
  | some which => .switch which none
  | none =>
    match cs with
    | '-' :: '-' :: _ =>
      let (begun, attached) := splitAtEquals cs
      let attached := attached.map String.ofList
      match switches.lookup (String.ofList begun) with
      | some which => .switch which attached
      | none =>
        match switches.filter fun (spelling, _) => begun.isPrefixOf spelling.toList with
        | [] => otherwise cs
        | [(_, which)] => .switch which attached
        | _ => .ambiguous
    | '-' :: 'h' :: letters =>
      let letters := match letters with | '=' :: more => more | _ => letters
      -- options of one letter may stand together
      if letters.all (· = 'h') && !letters.isEmpty then .switch .help none
      else .switch .help (some (String.ofList letters))
    | '-' :: _ :: _ => otherwise cs
    | _ => .formula argument

/-- What the arguments ask for. -/
structure Options where
  strict : Bool
  display : Option DisplayMode
  formulas : List String
  deriving DecidableEq, Repr, Inhabited

/-- What becomes of the arguments. -/
inductive Request
  | evaluate (options : Options)
  | help
  | rejected
  deriving DecidableEq, Repr, Inhabited

/-- The arguments before `--`, as what they are, and those after it, if it is there. -/
def splitAtMark : List String → List String × Option (List String)
  | [] => ([], none)
  | "--" :: rest => ([], some rest)
  | argument :: rest =>
    let (before, after) := splitAtMark rest
    (argument :: before, after)

/-- What is known of the arguments while they are taken one after the other.
Formulas in a second place are `surplus`, as is anything like an option. -/
structure Progress where
  options : Options
  current : List String
  placed : Bool
  surplus : Bool
  deriving DecidableEq, Repr, Inhabited

/-- Formulas that stand side by side have come to an end. -/
def Progress.settle (p : Progress) : Progress :=
  if p.current.isEmpty then p
  else if p.placed then { p with current := [], surplus := true }
  else
    { p with options := { p.options with formulas := p.current }, current := [], placed := true }

def Progress.setDisplay (p : Progress) (mode : Option DisplayMode) : Progress :=
  { p with options := { p.options with display := mode } }

/-- The display mode that is attached to its option. The mark `--` undoes the choice. -/
def attachedDisplay? (label : String) : Option (Option DisplayMode) :=
  if label = "--" then some none else (DisplayMode.ofLabel? label).map some

/-- Takes the arguments one after the other. What follows `--` belongs to the
formulas that stand right before it. -/
def take (after : Option (List String)) (p : Progress) : List Argument → Request
  | [] =>
    let p :=
      match after with
      | none => p.settle
      | some formulas =>
        if p.placed then { p with surplus := true }
        else { p with options := { p.options with formulas := p.current ++ formulas } }
    if p.surplus then .rejected else .evaluate p.options
  | .formula text :: rest => take after { p with current := p.current ++ [text] } rest
  | .unknown :: rest => take after { p.settle with surplus := true } rest
  | .ambiguous :: _ => .rejected
  | .switch .help none :: _ => .help
  | .switch .help (some _) :: _ => .rejected
  | .switch .strict none :: rest =>
    let p := p.settle
    take after { p with options := { p.options with strict := true } } rest
  | .switch .strict (some _) :: _ => .rejected
  | .switch .display (some label) :: rest =>
    match attachedDisplay? label with
    | some mode => take after (p.settle.setDisplay mode) rest
    | none => .rejected
  | .switch .display none :: .formula label :: rest =>
    match DisplayMode.ofLabel? label with
    | some mode => take after (p.settle.setDisplay (some mode)) rest
    | none => .rejected
  | .switch .display none :: _ => .rejected

/-- What the arguments ask for. An ambiguous one is rejected before anything else. -/
def request (arguments : List String) : Request :=
  let (before, after) := splitAtMark arguments
  let classified := before.map classify
  if classified.contains .ambiguous then .rejected
  else take after ⟨⟨false, none, []⟩, [], false, false⟩ classified

/-- What the program did: it refused the arguments, showed how to use it, or
evaluated formulas, printed, and logged. -/
inductive Outcome
  | refused
  | helped
  | evaluated (output log : String)
  deriving DecidableEq, Repr, Inhabited

/-- The exit code. -/
def Outcome.exit : Outcome → Nat
  | refused => 2
  | helped | evaluated .. => 0

/-- The session that options and environment ask for; options count more. -/
def initialSession (options : Options) (env : Environment) : Session :=
  let session := Session.ofEnvironment env
  { session with
    strict := options.strict || session.strict
    display := options.display.getD session.display }

/-- All records are of the level `debug`. -/
def logs (env : Environment) : Bool := Settings.logLevel env = .debug

def logText (env : Environment) (events : List Event) : String :=
  if logs env then String.join (events.map Event.logLine) else ""

/-- The limit on nesting. -/
def limit (env : Environment) : Nesting.Limit :=
  if logs env then Nesting.withLog else Nesting.standard

/-- The lines of an input; the end of the last one may be missing. -/
def linesOf (input : String) : List String :=
  let (last, lines) := input.toList.foldr
    (fun c (line, lines) => if c = '\n' then ([], line :: lines) else (c :: line, lines))
    (([] : List Char), ([] : List (List Char)))
  -- the fold leaves the first line in front; the last line is empty after a line end
  let all := last :: lines
  (if all.getLast? = some [] then all.dropLast else all).map String.ofList

def prompt : String := "> "

/-- The transcript of the formulas, or of the loop where there are none. -/
def transcript (options : Options) (env : Environment) (input : String) :
    Except Fault Repl.Transcript :=
  let session := initialSession options env
  if options.formulas.isEmpty then Repl.run prompt session (linesOf input) (limit env)
  else Repl.evaluate session options.formulas (limit env)

/-- Runs the program on arguments, environment and standard input. -/
def execute (arguments : List String) (env : Environment) (input : String) :
    Except Fault Outcome :=
  match request arguments with
  | .rejected => .ok .refused
  | .help => .ok .helped
  | .evaluate options => do
    let done ← transcript options env input
    return .evaluated done.output (logText env done.events)

end CommandLine

end Propositional
