/-
Rewriting is hygienic. Atoms are bare indices, those of a stored rule as well as those of
a line, so an atom of a rule that got into a rewritten formula would be shown under
whatever name the line has for its index. It cannot: what the steps of a chain bring about
and what they find in their way is over the atoms of the formula at the head of the chain
(`stepsFrom_over`, `chain_over`), and these are the identifiers with which the line begins
(`Statement.head_first`).
-/
import Propositional.Proofs.Grammar.Shape
import Propositional.Proofs.Rewriting.Links
import Propositional.Proofs.Session.Lines

namespace Propositional

namespace Grammar

variable {index : String → Int} {tokens : List Token}

theorem Rewrites.head_first {n : Node} (h : Rewrites index tokens n) (sign : String)
    (more : List Token) :
    ∃ first sign' more', tokens ++ ⟨.applies, sign⟩ :: more = first ++ ⟨.applies, sign'⟩ :: more' ∧
      Formula index first (Rewrite.head n) := by
  induction h generalizing sign more with
  | @formula tokens n hf =>
    exact ⟨tokens, sign, more, rfl, (Rewrite.head_formula hf.isFormula).symm ▸ hf⟩
  | @apply tokens left right target lhs rhs applies equals _ _ _ ih =>
    obtain ⟨first, sign', more', htokens, hf⟩ :=
      ih applies (left ++ ⟨.equals, equals⟩ :: (right ++ ⟨.applies, sign⟩ :: more))
    refine ⟨first, sign', more', ?_, hf⟩
    rw [← htokens]
    simp

theorem Statement.head_first {target rule : Node}
    (h : Statement index tokens (.application target rule)) :
    ∃ first sign more, tokens = first ++ ⟨.applies, sign⟩ :: more ∧
      Formula index first (Rewrite.links target rule).1 := by
  rw [Rewrite.links_eq]
  cases h with
  | rewrites h =>
    cases h with
    | formula hf => cases hf.isFormula
    | @apply _ left right _ _ _ applies equals htarget =>
      obtain ⟨first, sign, more, htokens, hf⟩ :=
        htarget.head_first applies (left ++ ⟨.equals, equals⟩ :: right)
      refine ⟨first, sign, more, ?_, hf⟩
      rw [← htokens]
      simp
  | byName applies name htarget => exact htarget.head_first applies [⟨.identifier, name⟩]

end Grammar

open Grammar

/-- The node is a formula over atoms of `f`, and each of its atoms has the name of one that
stands in the tokens of `f`. -/
structure Node.StemsFrom (n : Node) (symbols : Symbols) (tokens : List Token) (f : Node) :
    Prop where
  built : f.Over n
  named : ∀ i ∈ n.atoms, ∃ name ∈ Token.identifiers tokens, symbols.name? i = some name

theorem Node.Over.stemsFrom {symbols : Symbols} {tokens : List Token} {f n : Node}
    (h : f.Over n) (hf : Formula symbols.indexOf tokens f)
    (hnames : ∀ name ∈ Token.identifiers tokens, name ∈ symbols.names) :
    n.StemsFrom symbols tokens f := by
  refine ⟨h, fun i hi => ?_⟩
  have hmem := h.atoms i hi
  rw [hf.atoms] at hmem
  obtain ⟨name, hname, rfl⟩ := List.mem_map.1 hmem
  exact ⟨name, hname, Symbols.name?_indexOf (hnames name hname)⟩

/-- The rewritten tree, if there is one, and all that was found in the way stem from `f`. -/
structure Rewrite.StemsFrom (outcome : Rewrite) (symbols : Symbols) (tokens : List Token)
    (f : Node) : Prop where
  result : ∀ t, outcome.status = .ok t → t.StemsFrom symbols tokens f
  found : ∀ m ∈ outcome.mismatches, m.found.StemsFrom symbols tokens f

namespace Session

variable {line : Line} {rules : RuleStore} {target rule : Node}

/-- **Rewriting is hygienic.** Let a line be read as a chain of rewrites, and take any store
of rules that are equivalences of formulas, whatever their atoms, and either policy of
matching. The line begins with the tokens of a formula `f`, which is the head of the chain.
Each step meets an expression over the atoms of `f`; so are what it is rewritten to and
what is found in the way. This then goes for the chain, unless it ends at a name without a
rule. Every index in these trees has in the table of the line the name of an atom that
stands in `f`. -/
theorem rewriting_is_hygienic (hrules : rules.HoldsFormulas)
    (hread : line.read.outcome = .ok (.application target rule)) (strict : Bool) :
    ∃ first sign more f, line.tokens = first ++ ⟨.applies, sign⟩ :: more ∧
      Formula line.read.stream.symbols.indexOf first f ∧
      (Rewrite.links target rule).1 = f ∧
      (∀ s ∈ Rewrite.steps line.read.stream.symbols rules strict target rule,
        s.target.StemsFrom line.read.stream.symbols first f ∧
          s.outcome.StemsFrom line.read.stream.symbols first f) ∧
      ((∃ outcome, Rewrite.chain line.read.stream.symbols rules strict target rule = .ok outcome ∧
          outcome.StemsFrom line.read.stream.symbols first f) ∨
        ∃ name, Rewrite.chain line.read.stream.symbols rules strict target rule =
          .error (.undefinedRule name)) := by
  have hstatement := parse_iff.1 hread
  have hsymbols := Line.read_symbols hread
  rw [← Line.symbols, ← hsymbols] at hstatement
  obtain ⟨first, sign, more, htokens, hf⟩ := hstatement.head_first
  have hnames : ∀ name ∈ Token.identifiers first, name ∈ line.read.stream.symbols.names := by
    intro name hname
    rw [hsymbols]
    refine mem_afterTokens ?_
    simp [htokens, hname]
  have houtcome : ∀ {outcome : Rewrite}, Rewrite.Over (Rewrite.links target rule).1 outcome →
      outcome.StemsFrom line.read.stream.symbols first (Rewrite.links target rule).1 :=
    fun hover => ⟨fun t ht => (hover.result ht).stemsFrom hf hnames,
      fun m hm => (hover.found m hm).stemsFrom hf hnames⟩
  cases read_shape hread with
  | formula hn => cases hn
  | application hhead _ hlinks =>
    refine ⟨first, sign, more, _, htokens, hf, rfl, fun s hs => ?_, ?_⟩
    · obtain ⟨htarget, hover⟩ := Rewrite.stepsFrom_over hrules hlinks hhead s hs
      exact ⟨htarget.stemsFrom hf hnames, houtcome hover⟩
    · rcases Rewrite.chain_over strict hrules hlinks hhead with ⟨outcome, hchain, hover⟩ | hname
      · exact .inl ⟨outcome, hchain, houtcome hover⟩
      · exact .inr hname

/-- A rule that doubles its atom, which has the index that the lines below have for `q`. -/
def doubling : RuleStore :=
  .ofList [("double", .equivalence (.atom 1) (.binary (.atom 1) .conj (.atom 1)))]

/-- A mismatch at `q`, and then the stored rule; `p` alone is left. -/
theorem rewriting_is_hygienic_doubled :
    doubling.HoldsFormulas ∧
      ∃ target rule, (Line.ofText "p & q => a & ~b = a => double" "").read.outcome =
          .ok (.application target rule) ∧
        ∃ outcome first, Rewrite.chain
            (Line.ofText "p & q => a & ~b = a => double" "").read.stream.symbols doubling false
            target rule = .ok outcome ∧
          outcome.status = .ok (.binary (.atom 0) .conj (.atom 0)) ∧
          outcome.mismatches.map (·.found) = [.atom 1] ∧
          outcome.StemsFrom
            (Line.ofText "p & q => a & ~b = a => double" "").read.stream.symbols first
            (.binary (.atom 0) .conj (.atom 1)) := by
  have hrules : doubling.HoldsFormulas := by
    intro name rule hget
    cases List.mem_singleton.1 (OrderedMap.mem_entries_of_get? hget)
    exact ⟨.atom 1, .binary _ (.atom 1) (.atom 1)⟩
  have hread : (Line.ofText "p & q => a & ~b = a => double" "").read.outcome =
      .ok (.application
        (.application (.binary (.atom 0) .conj (.atom 1))
          (.equivalence (.binary (.atom 2) .conj (.neg (.atom 3))) (.atom 2)))
        (.ruleName 4)) := rfl
  obtain ⟨first, sign, more, f, -, -, hhead, -, hchain⟩ := rewriting_is_hygienic hrules hread false
  cases hhead
  rcases hchain with ⟨outcome, hchain, hstems⟩ | ⟨name, hundefined⟩
  · refine ⟨hrules, _, _, hread, outcome, first, hchain, ?_, ?_, hstems⟩
    · cases hchain
      rfl
    · cases hchain
      rfl
  · cases hundefined

end Session

end Propositional
