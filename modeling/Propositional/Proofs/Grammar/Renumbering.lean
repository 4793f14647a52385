/-
The same tokens in other lines. A line numbers its names in the order in which they
first occur, so a part of it gets other indices in another line. Its tree is the same
but for the numbers of its atoms (`Derives.renumbered`), and just the same where a line
begins with it (`Rewrites.of_grows`). From this follows what is read when a name
or a rule is applied to what has been read before (`parse_applied_name`,
`parse_applied`).
-/
import Propositional.Proofs.Grammar.Parse
import Propositional.Proofs.Rewriting.Renumbering

namespace Propositional

namespace Grammar

open Propositional.Parser

variable {index index' : String → Int} {tokens : List Token} {n : Node}

theorem Derives.renumbered {level : Level} {ρ : Int → Int} (h : Derives index level tokens n)
    (hρ : ∀ name ∈ Token.identifiers tokens, ρ (index name) = index' name) :
    Derives index' level tokens (n.renumbered ρ) := by
  induction h with
  | identifier name =>
    have hname := hρ name (by simp [Token.identifiers_cons])
    rw [Node.renumbered, Node.subst, hname]
    exact .identifier name
  | parens o c _ ih =>
    exact .parens o c (ih fun name hname => hρ name (by simp [Token.identifiers_cons, hname]))
  | operand _ ih => exact .operand (ih hρ)
  | negation sign _ ih =>
    exact .negation sign (ih fun name hname => hρ name (by simp [Token.identifiers_cons, hname]))
  | joined _ ih => exact .joined (ih hρ)
  | chain sign _ _ ihl ihr =>
    exact .chain sign (ihl fun name hname => hρ name (by simp [hname]))
      (ihr fun name hname => hρ name (by simp [Token.identifiers_cons, hname]))

theorem Derives.congr {level : Level} (h : Derives index level tokens n)
    (hsame : ∀ name ∈ Token.identifiers tokens, index name = index' name) :
    Derives index' level tokens n := by
  have hrenumbered : Derives index' level tokens (n.renumbered id) := h.renumbered hsame
  rwa [Node.renumbered_id] at hrenumbered

theorem Rewrites.congr (h : Rewrites index tokens n)
    (hsame : ∀ name ∈ Token.identifiers tokens, index name = index' name) :
    Rewrites index' tokens n := by
  induction h with
  | formula hf => exact .formula (hf.congr hsame)
  | apply applies equals _ hl hr ih =>
    refine .apply applies equals (ih fun name hname => hsame name ?_)
      (hl.congr fun name hname => hsame name ?_) (hr.congr fun name hname => hsame name ?_) <;>
      simp [Token.identifiers_cons, hname]

/-- The beginning of a line has the tree that it has as a line of its own. -/
theorem Rewrites.of_grows {s s' : Symbols} (h : Rewrites s.indexOf tokens n) (hs : s.Grows s')
    (hnames : ∀ name ∈ Token.identifiers tokens, name ∈ s.names) :
    Rewrites s'.indexOf tokens n :=
  h.congr fun name hname => (Symbols.indexOf_of_grows hs (hnames name hname)).symm

/-- In another line the atoms of a formula have the indices of their names there. -/
theorem Derives.in_table {level : Level} {s s' : Symbols} (h : Derives s.indexOf level tokens n)
    (hnames : ∀ name ∈ Token.identifiers tokens, name ∈ s.names) :
    Derives s'.indexOf level tokens (n.renumbered (s.renumbering s')) :=
  h.renumbered fun name hname => Symbols.renumbering_indexOf (hnames name hname) s'

theorem Statement.rewrites_of_isInline (h : Statement index tokens n) (hn : n.IsInline) :
    Rewrites index tokens n := by
  cases h with
  | rewrites h => exact h
  | byName _ _ _ | binding =>
    cases hn with
    | formula hn => cases hn

theorem Rewrites.atoms_head (h : Rewrites index tokens n) :
    ∀ i ∈ (Rewrite.head n).atoms, ∃ name ∈ Token.identifiers tokens, i = index name := by
  induction h with
  | @formula tokens n hf =>
    intro i hi
    rw [Rewrite.head_formula hf.isFormula, hf.atoms] at hi
    obtain ⟨name, hname, rfl⟩ := List.mem_map.1 hi
    exact ⟨name, hname, rfl⟩
  | apply _ _ _ _ _ ih =>
    intro i hi
    obtain ⟨name, hname, rfl⟩ := ih i hi
    exact ⟨name, by simp [hname], rfl⟩

theorem Statement.of_binding {t r : Node} (h : Statement index tokens (.binding t r)) :
    ∃ name binds equals left right lhs rhs,
      tokens = ⟨.identifier, name⟩ :: ⟨.binds, binds⟩ :: (left ++ ⟨.equals, equals⟩ :: right) ∧
        Formula index left lhs ∧ Formula index right rhs ∧ t = .atom (index name) ∧
        r = .equivalence lhs rhs := by
  cases h with
  | rewrites h =>
    cases h with
    | formula hf => cases hf.isFormula
  | binding name binds equals hl hr =>
    exact ⟨name, binds, equals, _, _, _, _, rfl, hl, hr, rfl, rfl⟩

theorem distinctOn_names {s s' : Symbols} {atoms : List Int}
    (h : ∀ i ∈ atoms, ∃ name ∈ s.names, name ∈ s'.names ∧ i = s.indexOf name) :
    DistinctOn (s.renumbering s') atoms := by
  intro i hi j hj hij
  obtain ⟨name, hname, hname', rfl⟩ := h i hi
  obtain ⟨other, hother, hother', rfl⟩ := h j hj
  rw [Symbols.renumbering_indexOf hname, Symbols.renumbering_indexOf hother] at hij
  have hsame : some name = some other := by
    rw [← Symbols.name?_indexOf hname', ← Symbols.name?_indexOf hother', hij]
  rw [Option.some.inj hsame]

/-! ## Lines that go on -/

theorem mem_afterTokens {s : Symbols} {name : String} (h : name ∈ Token.identifiers tokens) :
    name ∈ (s.afterTokens tokens).names :=
  Symbols.mem_internAll.2 (.inr h)

variable {before : List Token} {target : Node}

/-- What has been read before, at the beginning of a longer line. -/
theorem rewrites_before (h : (Stream.ofTokens before).parse.outcome = .ok target)
    (hinline : target.IsInline) (more : List Token) :
    Rewrites (Symbols.empty.afterTokens (before ++ more)).indexOf before target := by
  have hrewrites := (parse_iff.1 h).rewrites_of_isInline hinline
  refine hrewrites.of_grows ?_ fun name => mem_afterTokens
  rw [Symbols.afterTokens_append]
  exact Symbols.grows_afterTokens _ _

theorem parse_applied_name (h : (Stream.ofTokens before).parse.outcome = .ok target)
    (hinline : target.IsInline) (applies name : String) :
    (Stream.ofTokens (before ++ [⟨.applies, applies⟩, ⟨.identifier, name⟩])).parse.outcome =
      .ok (.application target (.ruleName
        ((Symbols.empty.afterTokens
          (before ++ [⟨.applies, applies⟩, ⟨.identifier, name⟩])).indexOf name))) :=
  parse_iff.2 (.byName applies name (rewrites_before h hinline _))

theorem parse_applied (h : (Stream.ofTokens before).parse.outcome = .ok target)
    (hinline : target.IsInline) (applies equals : String) {left right : List Token}
    {lhs rhs : Node} {symbols : Symbols}
    (hsymbols : symbols = Symbols.empty.afterTokens
      (before ++ ⟨.applies, applies⟩ :: (left ++ ⟨.equals, equals⟩ :: right)))
    (hl : Formula symbols.indexOf left lhs) (hr : Formula symbols.indexOf right rhs) :
    (Stream.ofTokens
        (before ++ ⟨.applies, applies⟩ :: (left ++ ⟨.equals, equals⟩ :: right))).parse.outcome =
      .ok (.application target (.equivalence lhs rhs)) := by
  subst hsymbols
  have hbefore := rewrites_before h hinline
    (⟨.applies, applies⟩ :: (left ++ ⟨.equals, equals⟩ :: right))
  have hstatement := Statement.rewrites (Rewrites.apply applies equals hbefore hl hr)
  rw [List.append_assoc, List.cons_append] at hstatement
  exact parse_iff.2 hstatement

/-- The head of what has been read before is over names, under the same numbers in every
line that begins so. -/
theorem head_names (h : (Stream.ofTokens before).parse.outcome = .ok target)
    (hinline : target.IsInline) :
    ∀ i ∈ (Rewrite.head target).atoms, ∃ name ∈ Token.identifiers before,
      ∀ more, (Symbols.empty.afterTokens (before ++ more)).indexOf name = i := by
  intro i hi
  obtain ⟨name, hname, rfl⟩ := ((parse_iff.1 h).rewrites_of_isInline hinline).atoms_head i hi
  refine ⟨name, hname, fun more => ?_⟩
  rw [Symbols.afterTokens_append]
  exact Symbols.indexOf_of_grows (Symbols.grows_afterTokens _ _) (mem_afterTokens hname)

theorem name?_before {name : String} (h : name ∈ Token.identifiers before) (more : List Token) :
    (Symbols.empty.afterTokens (before ++ more)).name?
      ((Symbols.empty.afterTokens before).indexOf name) = some name := by
  have hgrows := Symbols.grows_afterTokens (Symbols.empty.afterTokens before) more
  have hmem : name ∈ (Symbols.empty.afterTokens before).names := mem_afterTokens h
  rw [Symbols.afterTokens_append, ← Symbols.indexOf_of_grows hgrows hmem,
    Symbols.name?_indexOf (hgrows.mem hmem)]

end Grammar

end Propositional
