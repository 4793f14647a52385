/-
Why a text is no phrase of the language: one constructor per cause, and the
wording, for which the trees already read are written out again.
-/
import Propositional.Node.Printer
import Propositional.Token

namespace Propositional.Parser

/-- Why reading failed. -/
inductive Failure
  /-- An operand was due; this token, or the end of the input, begins none. -/
  | noOperand (found : Option Token)
  | unclosedParen
  /-- Only an atom can be bound to a rule. -/
  | notBindable (target : Node)
  /-- The rule of a binding has no `=`. -/
  | bindingWithoutEquals
  /-- A rule that is applied has no `=`, and goes on, so that it is no name either. -/
  | ruleWithoutEquals (found : Token)
  /-- A rule that is applied ends without `=`, and is no name. -/
  | notRuleName (found : Node)
  /-- The statement ended before the input. -/
  | trailing (found : Token)
  deriving DecidableEq, Repr, Inhabited

namespace Failure

/-- The tree that the wording shows, if it shows one. -/
def shownNode? : Failure → Option Node
  | notBindable node | notRuleName node => some node
  | _ => none

/-- The wording; `symbols` holds the names of the tokens read. -/
def message (symbols : Symbols) : Failure → Except Fault String
  | noOperand found => .ok ("Unexpected token: " ++ Token.describe found)
  | unclosedParen => .ok "Missing closing parenthesis"
  | notBindable target => do
    let text ← target.text symbols
    return "Can only bind rule to identifier, found " ++ text
  | bindingWithoutEquals => .ok "Expected '=' in pattern expression"
  | ruleWithoutEquals found =>
    .ok ("Expected '=' in pattern expression or rule identifier, found " ++
      Token.describe (some found))
  | notRuleName found => do
    let text ← found.text symbols
    return "Expected rule identifier name, but got " ++ text
  | trailing found =>
    .ok ("Unexpected token, expected end of input: " ++ Token.describe (some found))

end Failure

end Propositional.Parser
