/-
Tokens: what the source text consists of once blanks and malformed pieces are
left out. `spellings` and `keywords` say how each kind is written.
-/
import Propositional.Node
import Propositional.Text.Quoted

namespace Propositional

namespace Token

/-- What a token is for. Kinds outside the language are `other`. -/
inductive Kind
  | identifier
  | negation
  | connective (op : Connective)
  | applies
  | binds
  | equals
  | opening
  | closing
  | other (label : String)
  deriving DecidableEq, Repr, Inhabited

namespace Kind

def label : Kind → String
  | identifier => "identifier"
  | negation => "not"
  | connective .conj => "and"
  | connective .disj => "or"
  | connective .cond => "arrow"
  | connective .bicond => "twin_arrow"
  | applies => "rule"
  | binds => "bind"
  | equals => "equal"
  | opening => "lparen"
  | closing => "rparen"
  | other label => label

/-- The kinds of the language. -/
def all : List Kind :=
  [identifier, negation, connective .conj, connective .disj, connective .cond, connective .bicond,
    applies, binds, equals, opening, closing]

/-- The kind with a label; a label that none of the language's kinds has makes an `other`. -/
def ofLabel (label : String) : Kind :=
  (all.find? (·.label == label)).getD (other label)

end Kind

/-- The operators and their spellings, in the order in which they are tried. -/
def spellings : List (String × Kind) :=
  [("<->", .connective .bicond), ("->", .connective .cond), ("=>", .applies), (":=", .binds),
    ("=", .equals), ("&", .connective .conj), ("|", .connective .disj), ("~", .negation),
    ("(", .opening), (")", .closing)]

/-- The words that stand for operators. -/
def keywords : List (String × Kind) :=
  [("and", .connective .conj), ("or", .connective .disj), ("not", .negation),
    ("implies", .connective .cond), ("equiv", .connective .bicond), ("rule", .applies)]

/-- The word that stands for the previous text. -/
def answer : String := "ans"

def kindOfWord (word : String) : Kind :=
  (keywords.lookup word).getD .identifier

end Token

/-- A kind, and the characters it was written with. -/
structure Token where
  kind : Token.Kind
  text : String
  deriving DecidableEq, Repr, Inhabited

/-- A token as messages name it; none at the end of the input. -/
def Token.describe : Option Token → String
  | none => "end of input"
  | some ⟨.identifier, text⟩ => "identifier " ++ Text.quote text
  | some ⟨_, text⟩ => Text.quote text

end Propositional
