/-
What a statement consists of once it has been read: a formula, a chain of rules
applied to a formula, or a name bound to a rule. The rules of a chain are
equivalences of formulas or names, and every index has a name in the symbol
table of the line (`read_shape`).
-/
import Propositional.Proofs.Grammar.Parse
import Propositional.Proofs.Rewriting.Scope

namespace Propositional

/-- The atoms of a node have names. -/
def Node.NamedIn (symbols : Symbols) (n : Node) : Prop := ∀ i ∈ n.atoms, (symbols.name? i).isSome

theorem Node.Over.namedIn {symbols : Symbols} {expr n : Node} (h : expr.Over n)
    (hexpr : expr.NamedIn symbols) : n.NamedIn symbols :=
  fun i hi => hexpr i (h.atoms i hi)

namespace Grammar

open Propositional.Parser Rewrite

/-- The three kinds of statements, with all that they are made of. -/
inductive Shape (symbols : Symbols) : Node → Prop
  | formula {n : Node} : n.IsFormula → n.NamedIn symbols → Shape symbols n
  | application {target rule : Node} :
      (links target rule).1.IsFormula → (links target rule).1.NamedIn symbols →
      (∀ r ∈ (links target rule).2, IsLink symbols r) → Shape symbols (.application target rule)
  | binding {i : Int} {name : String} {lhs rhs : Node} :
      symbols.name? i = some name → lhs.IsFormula → rhs.IsFormula →
      lhs.NamedIn symbols → rhs.NamedIn symbols →
      Shape symbols (.binding (.atom i) (.equivalence lhs rhs))

variable {symbols : Symbols} {tokens : List Token}

theorem Derives.namedIn {level : Level} {n : Node} (h : Derives symbols.indexOf level tokens n)
    (hnames : ∀ name ∈ Token.identifiers tokens, name ∈ symbols.names) : n.NamedIn symbols := by
  intro i hi
  rw [h.atoms] at hi
  obtain ⟨name, hname, rfl⟩ := List.mem_map.1 hi
  rw [Symbols.name?_indexOf (hnames name hname)]
  rfl

/-- A rule applied to what has been read makes a chain. -/
theorem Rewrites.shape {target : Node} (h : Rewrites symbols.indexOf tokens target)
    (hnames : ∀ name ∈ Token.identifiers tokens, name ∈ symbols.names) {rule : Node}
    (hrule : IsLink symbols rule) : Shape symbols (.application target rule) := by
  induction h generalizing rule with
  | @formula tokens n hf =>
    have hn := hf.isFormula
    have hlinks : links n rule = (n, [rule]) := by
      cases hn <;> rfl
    refine .application ?_ ?_ ?_ <;> rw [hlinks]
    · exact hn
    · exact hf.namedIn hnames
    · intro r hr
      rwa [List.mem_singleton.1 hr]
  | @apply tokens left right target lhs rhs applies equals _ hl hr ih =>
    have htarget : ∀ name ∈ Token.identifiers tokens, name ∈ symbols.names :=
      fun name hname => hnames name (by simp [hname])
    have hbefore : Shape symbols (.application target (.equivalence lhs rhs)) :=
      ih htarget (.inl ⟨hl.isFormula, hr.isFormula⟩)
    cases hbefore with
    | formula hf => cases hf
    | application hhead hnamed hlinks =>
      refine .application hhead hnamed fun r hr => ?_
      rcases List.mem_append.1 hr with hr | hr
      · exact hlinks r hr
      · rwa [List.mem_singleton.1 hr]

theorem Statement.shape {n : Node} (h : Statement symbols.indexOf tokens n)
    (hnames : ∀ name ∈ Token.identifiers tokens, name ∈ symbols.names) : Shape symbols n := by
  cases h with
  | rewrites h =>
    cases h with
    | formula hf => exact .formula hf.isFormula (hf.namedIn hnames)
    | apply _ _ htarget hl hr =>
      exact htarget.shape (fun name hname => hnames name (by simp [hname]))
        (.inl ⟨hl.isFormula, hr.isFormula⟩)
  | byName applies name htarget =>
    have hmem : name ∈ symbols.names := hnames name (by simp [Token.identifiers_cons])
    exact htarget.shape (fun name hname => hnames name (by simp [hname]))
      (.inr ⟨_, name, rfl, Symbols.name?_indexOf hmem⟩)
  | binding name binds equals hl hr =>
    have hmem : name ∈ symbols.names := hnames name (by simp [Token.identifiers_cons])
    exact .binding (Symbols.name?_indexOf hmem) hl.isFormula hr.isFormula
      (hl.namedIn fun name hname => hnames name (by simp [Token.identifiers_cons, hname]))
      (hr.namedIn fun name hname => hnames name (by simp [Token.identifiers_cons, hname]))

/-- A statement that has been read has one of the three shapes. -/
theorem read_shape {n : Node} (h : (Stream.ofTokens tokens symbols).parse.outcome = .ok n) :
    Shape (Stream.ofTokens tokens symbols).parse.stream.symbols n := by
  rw [parse_stream h]
  refine (parse_iff.1 h).shape fun name hname => ?_
  rw [Symbols.afterTokens, Symbols.mem_internAll]
  exact .inr hname

end Grammar

end Propositional
