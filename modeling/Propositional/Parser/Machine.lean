/-
The parser as a machine that is shown one token after the other. Its state
keeps, innermost first, what the formula being read still waits for: an operand
under a negation, a closing parenthesis, the right side of a connective. Around
the formula stands its context, which is the rest of a statement or nothing.

After an operand the machine completes what can no longer grow: negations at
once, left sides of a connective as soon as the next connective binds no
tighter. So negation binds tightest, then `&`, `|`, `->` and `<->`, and equal
connectives group to the left.
-/
import Propositional.Parser.Failure

namespace Propositional.Parser

/-- What a partly read formula waits for. -/
inductive Frame
  | negation
  | paren
  | leftOf (left : Node) (op : Connective)
  deriving DecidableEq, Repr, Inhabited

/-- How many levels a frame counts towards the depth of nesting. -/
def Frame.weight : Frame → Nat
  | paren => 8
  | negation => 1
  | leftOf .. => 0

/-- What is being read. The first three are phrases of their own: an operand
without negations in front, one with them, and a formula. The others are the
places of a formula in a statement, with the trees that stand before it. -/
inductive Context
  | operand
  | negated
  | formula
  | statement
  | bindingLhs (target : Node)
  | bindingRhs (target lhs : Node)
  | ruleLhs (target : Node)
  | ruleRhs (target lhs : Node)
  deriving DecidableEq, Repr, Inhabited

/-- The machine between two tokens. With a `value` it has just completed an
operand; without one it is due to read one. -/
structure State where
  context : Context
  frames : List Frame
  value : Option Node
  symbols : Symbols
  deriving DecidableEq

namespace State

def start (context : Context) (symbols : Symbols) : State := ⟨context, [], none, symbols⟩

/-- How deep the machine is in the formula. -/
def depth (s : State) : Nat := s.frames.foldl (fun depth frame => depth + frame.weight) 0

end State

/-- Completes the negations that wait for an operand. -/
def negate (value : Node) : List Frame → Node × List Frame
  | .negation :: frames => negate (.neg value) frames
  | frames => (value, frames)

/-- Completes the left sides that bind at least as tightly as `op`. -/
def reduce (op : Connective) (value : Node) : List Frame → Node × List Frame
  | .leftOf left op' :: frames =>
    if op'.rank ≤ op.rank then reduce op (.binary left op' value) frames
    else (value, .leftOf left op' :: frames)
  | frames => (value, frames)

/-- What the machine makes of a token. -/
inductive Verdict
  /-- The token belongs to the phrase, which goes on. -/
  | shift (next : State)
  /-- The phrase ended before the token. -/
  | done (result : Node)
  | fail (failure : Failure)

/-- The state after a completed operand. -/
def State.withOperand (s : State) (symbols : Symbols) (operand : Node) (frames : List Frame) :
    State :=
  let (value, frames) := negate operand frames
  { s with value := some value, frames := frames, symbols := symbols }

/-- An operand is due. -/
def State.onOperand (s : State) (t : Token) : Verdict :=
  match t.kind with
  | .identifier =>
    let (index, symbols) := s.symbols.intern t.text
    .shift (s.withOperand symbols (.atom index) s.frames)
  | .negation =>
    if s.context = .operand ∧ s.frames = [] then .fail (.noOperand (some t))
    else .shift { s with frames := .negation :: s.frames }
  | .opening => .shift { s with frames := .paren :: s.frames }
  | _ => .fail (.noOperand (some t))

/-- The machine at the beginning of the next formula of a statement. -/
def State.enter (s : State) (context : Context) : Verdict :=
  .shift { s with context := context, frames := [], value := none }

/-- A formula is complete, and the token `t` does not belong to it. -/
def State.afterFormula (s : State) (value : Node) (t : Token) : Verdict :=
  match s.context with
  | .operand | .negated | .formula => .done value
  | .statement =>
    match t.kind, value with
    | .binds, .atom _ => s.enter (.bindingLhs value)
    | .binds, _ => .fail (.notBindable value)
    | .applies, _ => s.enter (.ruleLhs value)
    | _, _ => .done value
  | .bindingLhs target =>
    if t.kind = .equals then s.enter (.bindingRhs target value) else .fail .bindingWithoutEquals
  | .bindingRhs target lhs => .done (.binding target (.equivalence lhs value))
  | .ruleLhs target =>
    if t.kind = .equals then s.enter (.ruleRhs target value) else .fail (.ruleWithoutEquals t)
  | .ruleRhs target lhs =>
    let result := Node.application target (.equivalence lhs value)
    if t.kind = .applies then s.enter (.ruleLhs result) else .done result

/-- An operand is complete: either it is the left side of a connective, or all
left sides are completed, and a parenthesis closes or the formula ends. -/
def State.onOperator (s : State) (value : Node) (t : Token) : Verdict :=
  match t.kind with
  | .connective op =>
    let (left, frames) := reduce op value s.frames
    .shift { s with value := none, frames := .leftOf left op :: frames }
  | kind =>
    match reduce .bicond value s.frames with
    | (inner, .paren :: frames) =>
      if kind = .closing then .shift (s.withOperand s.symbols (.group inner) frames)
      else .fail .unclosedParen
    | (inner, _) => s.afterFormula inner t

/-- What the machine makes of the next token. -/
def State.step (s : State) (t : Token) : Verdict :=
  match s.value with
  | some value => s.onOperator value t
  | none => s.onOperand t

/-- The last formula is complete at the end of the input. -/
def Context.finish (value : Node) : Context → Except Failure Node
  | operand | negated | formula | statement => .ok value
  | bindingLhs _ => .error .bindingWithoutEquals
  | bindingRhs target lhs => .ok (.binding target (.equivalence lhs value))
  | ruleLhs target =>
    match value with
    | .atom i => .ok (.application target (.ruleName i))
    | _ => .error (.notRuleName value)
  | ruleRhs target lhs => .ok (.application target (.equivalence lhs value))

/-- What the machine makes of the end of the input. -/
def State.finish (s : State) : Except Failure Node :=
  match s.value with
  | none => .error (.noOperand none)
  | some value =>
    match reduce .bicond value s.frames with
    | (_, .paren :: _) => .error .unclosedParen
    | (formula, _) => s.context.finish formula

/-- The phrase read, where it is complete without a look at the next token. -/
def State.settled? (s : State) : Option Node :=
  match s.context, s.frames, s.value with
  | .operand, [], some value | .negated, [], some value => some value
  | _, _, _ => none

end Propositional.Parser
