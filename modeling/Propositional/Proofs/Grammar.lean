/-
The grammar of the language, as relations between lists of tokens and trees:

    operand    := IDENTIFIER | '(' formula ')'
    negation   := '~' negation | operand
    formula    := chains of '&', '|', '->' and '<->' over negations, '&' being
                  the tightest, '<->' the loosest, each grouped to the left
    statement  := IDENTIFIER ':=' formula '=' formula
                | formula ('=>' formula '=' formula)* ['=>' IDENTIFIER]

A tree names its atoms by their index, so the relations are about a given
assignment of indices to names. Precedence is the order of the levels alone;
the ranks by which the parser and the printer decide do not occur here.
-/
import Propositional.Proofs.Interning

namespace Propositional

namespace Grammar

/-- The places of formulas within formulas, tightest first: an operand, an operand
with negations in front, and for each connective the chains of it. -/
inductive Level
  | operand
  | negation
  | chain (op : Connective)
  deriving DecidableEq, Repr

/-- What a connective joins: chains of the next tighter one, or negations. -/
def Level.joinedBy : Connective → Level
  | .conj => negation
  | .disj => chain .conj
  | .cond => chain .disj
  | .bicond => chain .cond

/-- The tokens are a formula of the level, and this is its tree, if `index` gives
the indices of names. -/
inductive Derives (index : String → Int) : Level → List Token → Node → Prop
  | identifier (name : String) :
      Derives index .operand [⟨.identifier, name⟩] (.atom (index name))
  | parens {tokens : List Token} {inner : Node} (o c : String) :
      Derives index (.chain .bicond) tokens inner →
      Derives index .operand (⟨.opening, o⟩ :: tokens ++ [⟨.closing, c⟩]) (.group inner)
  | operand {tokens : List Token} {n : Node} :
      Derives index .operand tokens n → Derives index .negation tokens n
  | negation {tokens : List Token} {n : Node} (sign : String) :
      Derives index .negation tokens n →
      Derives index .negation (⟨.negation, sign⟩ :: tokens) (.neg n)
  | joined {op : Connective} {tokens : List Token} {n : Node} :
      Derives index (.joinedBy op) tokens n → Derives index (.chain op) tokens n
  | chain {op : Connective} {left right : List Token} {l r : Node} (sign : String) :
      Derives index (.chain op) left l → Derives index (.joinedBy op) right r →
      Derives index (.chain op) (left ++ ⟨.connective op, sign⟩ :: right) (.binary l op r)

/-- The tokens are a formula. -/
abbrev Formula (index : String → Int) : List Token → Node → Prop :=
  Derives index (.chain .bicond)

theorem Formula.name (index : String → Int) (name : String) :
    Formula index [⟨.identifier, name⟩] (.atom (index name)) :=
  .joined (.joined (.joined (.joined (.operand (.identifier name)))))

/-- A formula with inline rules applied to it one after the other. -/
inductive Rewrites (index : String → Int) : List Token → Node → Prop
  | formula {tokens : List Token} {n : Node} : Formula index tokens n → Rewrites index tokens n
  | apply {tokens left right : List Token} {target lhs rhs : Node} (applies equals : String) :
      Rewrites index tokens target → Formula index left lhs → Formula index right rhs →
      Rewrites index (tokens ++ ⟨.applies, applies⟩ :: left ++ ⟨.equals, equals⟩ :: right)
        (.application target (.equivalence lhs rhs))

/-- The tokens are a statement, and this is its tree. -/
inductive Statement (index : String → Int) : List Token → Node → Prop
  | rewrites {tokens : List Token} {n : Node} : Rewrites index tokens n → Statement index tokens n
  | byName {tokens : List Token} {target : Node} (applies name : String) :
      Rewrites index tokens target →
      Statement index (tokens ++ [⟨.applies, applies⟩, ⟨.identifier, name⟩])
        (.application target (.ruleName (index name)))
  | binding {left right : List Token} {lhs rhs : Node} (name binds equals : String) :
      Formula index left lhs → Formula index right rhs →
      Statement index
        (⟨.identifier, name⟩ :: ⟨.binds, binds⟩ :: left ++ ⟨.equals, equals⟩ :: right)
        (.binding (.atom (index name)) (.equivalence lhs rhs))

/-! ## What derivations say about trees -/

theorem Derives.isFormula {index : String → Int} {level : Level} {tokens : List Token} {n : Node}
    (h : Derives index level tokens n) : n.IsFormula := by
  induction h with
  | identifier name => exact .atom _
  | parens _ _ _ ih => exact .group ih
  | operand _ ih => exact ih
  | negation _ _ ih => exact .neg ih
  | joined _ ih => exact ih
  | chain _ _ _ ihl ihr => exact .binary _ ihl ihr

/-- The atoms of a formula are its identifiers, in order. -/
theorem Derives.atoms {index : String → Int} {level : Level} {tokens : List Token} {n : Node}
    (h : Derives index level tokens n) : n.atoms = (Token.identifiers tokens).map index := by
  induction h with
  | identifier name => simp [Node.atoms, Token.identifiers_cons]
  | parens _ _ _ ih => simp [Node.atoms, Token.identifiers_cons, ih]
  | operand _ ih => exact ih
  | negation _ _ ih => simp [Node.atoms, Token.identifiers_cons, ih]
  | joined _ ih => exact ih
  | chain _ _ _ ihl ihr => simp [Node.atoms, Token.identifiers_cons, ihl, ihr]

/-- A formula that is an atom is a bare identifier. -/
theorem Derives.of_atom {index : String → Int} {level : Level} {tokens : List Token} {i : Int}
    (h : Derives index level tokens (.atom i)) :
    ∃ name, tokens = [⟨.identifier, name⟩] ∧ i = index name := by
  generalize hn : Node.atom i = n at h
  induction h with
  | identifier name =>
    cases hn
    exact ⟨name, rfl, rfl⟩
  | operand _ ih | joined _ ih => exact ih hn
  | parens | negation | chain => cases hn

end Grammar

end Propositional
