/-
What lines are read as. A text with a rule applied to it by `=>` has its own tokens and
then those of the rule (`Line.ofText_applied`). What it is read as alone is in place in the
longer line too, atoms and all (`Line.head_names`), and the sides of the rule, whatever table
they have been read with elsewhere, get the indices of this line (`goesOn_of_table`).
-/
import Propositional.Proofs.Grammar.Renumbering
import Propositional.Proofs.Lexing.Joined
import Propositional.Session.Interpreter

namespace Propositional.Session

open Propositional.Parser

variable {before line : Line} {n target lhs rhs : Node}

/-! ## Joined texts -/

theorem Line.ofText_applied (first previous : String) {second : String}
    (hsecond : Lexeme.IsPlain second) :
    (Line.ofText (first ++ " => " ++ second) previous).tokens =
        (Line.ofText first previous).tokens ++
          ⟨.applies, "=>"⟩ :: Lexeme.tokens (Lexeme.ofSource second) ∧
      (Line.ofText (first ++ " => " ++ second) previous).diagnostics =
        Lexeme.diagnostics (Lexeme.ofSource (first ++ " ") previous) :=
  Lexeme.ofSource_joined rfl (by decide) (fun _ => rfl) first previous hsecond

theorem Line.ofText_bound (first previous : String) {second : String}
    (hsecond : Lexeme.IsPlain second) :
    (Line.ofText (first ++ " := " ++ second) previous).tokens =
      (Line.ofText first previous).tokens ++
        ⟨.binds, ":="⟩ :: Lexeme.tokens (Lexeme.ofSource second) :=
  (Lexeme.ofSource_joined rfl (by decide) (fun _ => rfl) first previous hsecond).1

/-! ## The names of a line -/

/-- The symbol table of a line that is read to its end. -/
def Line.symbols (line : Line) : Symbols := Symbols.empty.afterTokens line.tokens

theorem Line.read_symbols (h : line.read.outcome = .ok n) :
    line.read.stream.symbols = line.symbols :=
  congrArg Stream.symbols (Grammar.parse_stream h)

theorem Line.isName {text previous name : String}
    (hread : (Line.ofText text previous).read.outcome = .ok n)
    (hname : name ∈ (Line.ofText text previous).read.stream.symbols.names) : IsName name := by
  rw [Line.read_symbols hread] at hname
  exact Lexeme.isName_afterTokens hname

/-- The atoms of what lines begin with are names, under the same numbers in all of them. -/
theorem Line.head_names (hread : before.read.outcome = .ok target) (hinline : target.IsInline) :
    ∀ i ∈ (Rewrite.head target).atoms, ∃ name, ∀ (line : Line) more,
      line.tokens = before.tokens ++ more →
        name ∈ line.symbols.names ∧ line.symbols.indexOf name = i := by
  intro i hi
  obtain ⟨name, hname, hindex⟩ := Grammar.head_names hread hinline i hi
  refine ⟨name, fun line more hline => ?_⟩
  rw [Line.symbols, hline]
  exact ⟨Grammar.mem_afterTokens (by simp [hname]), hindex more⟩

/-! ## Lines that go on with a rule -/

/-- The line goes on behind `before`, which is read as `target`, with the rule `lhs = rhs`. -/
structure GoesOn (before line : Line) (target : Node) (left : List Token) (equals : String)
    (right : List Token) (lhs rhs : Node) : Prop where
  inline : target.IsInline
  begun : before.read.outcome = .ok target
  tokens : line.tokens =
    before.tokens ++ ⟨.applies, "=>"⟩ :: (left ++ ⟨.equals, equals⟩ :: right)
  lhs : Grammar.Formula line.symbols.indexOf left lhs
  rhs : Grammar.Formula line.symbols.indexOf right rhs

variable {left right : List Token} {equals : String}

theorem GoesOn.read (h : GoesOn before line target left equals right lhs rhs) :
    line.read.outcome = .ok (.application target (.equivalence lhs rhs)) := by
  rw [Line.read, h.tokens]
  refine Grammar.parse_applied h.begun h.inline "=>" equals ?_ h.lhs h.rhs
  rw [Line.symbols, h.tokens]

theorem GoesOn.mem_symbols (h : GoesOn before line target left equals right lhs rhs) :
    ∀ name ∈ Token.identifiers (left ++ right), name ∈ line.symbols.names := by
  intro name hname
  rw [Token.identifiers_append, List.mem_append] at hname
  refine Grammar.mem_afterTokens ?_
  rw [h.tokens]
  simp [Token.identifiers_cons, hname]

theorem GoesOn.isInline (h : GoesOn before line target left equals right lhs rhs) :
    (Node.application target (.equivalence lhs rhs)).IsInline :=
  .apply h.inline h.lhs.isFormula h.rhs.isFormula

/-- A line goes on with a rule that has been read with another table, in other numbers. -/
theorem goesOn_of_table (hread : before.read.outcome = .ok target) (hinline : target.IsInline)
    (hline : line.tokens =
      before.tokens ++ ⟨.applies, "=>"⟩ :: (left ++ ⟨.equals, equals⟩ :: right))
    {s : Symbols} (hl : Grammar.Formula s.indexOf left lhs)
    (hr : Grammar.Formula s.indexOf right rhs)
    (hs : ∀ name ∈ Token.identifiers (left ++ right), name ∈ s.names) :
    GoesOn before line target left equals right
      (lhs.renumbered (s.renumbering line.symbols))
      (rhs.renumbered (s.renumbering line.symbols)) :=
  ⟨hinline, hread, hline, hl.in_table fun name hname => hs name (by simp [hname]),
    hr.in_table fun name hname => hs name (by simp [hname])⟩

end Propositional.Session
