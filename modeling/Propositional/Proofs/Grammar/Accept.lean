/-
What the grammar derives, the machine reads. A chain may be begun on frames
that its own connectives leave alone (`Level.Fits`); reading it then leaves the
machine with a value and frames that the next sign completes to the chain's tree
on the frames of before. For an operand the machine goes on with the operand's
tree at once, and completes the negations in front of it.
-/
import Propositional.Proofs.Grammar
import Propositional.Proofs.Grammar.Machine

namespace Propositional.Grammar

open Propositional.Parser

/-- How loose a level is: chains of a connective come after what the connective joins. -/
def Level.rank : Level → Nat
  | operand | negation => 0
  | chain op => op.rank + 1

theorem Level.rank_joinedBy (op : Connective) : (joinedBy op).rank = op.rank := by
  cases op <;> rfl

/-- The frames on which a formula of a level may be begun so that it stays whole:
no negation waits, and no left side whose connective binds as tightly as its own. -/
def Level.Fits (level : Level) : List Frame → Prop
  | .negation :: _ => False
  | .leftOf _ op :: _ => level.rank ≤ op.rank
  | _ => True

theorem Level.Fits.mono {a b : Level} {frames : List Frame} (h : a.Fits frames)
    (hab : b.rank ≤ a.rank) : b.Fits frames := by
  match frames, h with
  | .leftOf _ op :: _, h => exact Nat.le_trans hab h
  | .paren :: _, _ | [], _ => trivial

/-- No negation waits for a chain. -/
theorem Level.Fits.negate {level : Level} {frames : List Frame} (h : level.Fits frames)
    (value : Node) : negate value frames = (value, frames) := by
  match frames, h with
  | .leftOf .. :: _, _ | .paren :: _, _ | [], _ => rfl

/-- A connective completes nothing below a chain of its own. -/
theorem Level.Fits.reduce {op : Connective} {frames : List Frame}
    (h : (Level.chain op).Fits frames) (value : Node) :
    reduce op value frames = (value, frames) := by
  match frames, h with
  | .leftOf left op' :: rest, h =>
    have hlt : ¬ op'.rank ≤ op.rank := Nat.not_le.2 h
    rw [Parser.reduce, if_neg hlt]
  | .paren :: _, _ | [], _ => rfl

/-- The given indices are those of the table, as far as it goes. -/
def Agrees (index : String → Int) (symbols : Symbols) : Prop :=
  ∀ name ∈ symbols.names, index name = symbols.indexOf name

theorem Agrees.of_grows {index : String → Int} {s s' : Symbols} (h : Agrees index s')
    (hs : s.Grows s') : Agrees index s := by
  intro name hn
  rw [h name (hs.mem hn), Symbols.indexOf_of_grows hs hn]

/-- The machine takes the tokens and goes on as if their tree had been read at once. -/
def ReadsOperand (context : Context) (frames : List Frame) (symbols : Symbols)
    (tokens : List Token) (n : Node) : Prop :=
  Shifts ⟨context, frames, none, symbols⟩ tokens
    ⟨context, (negate n frames).2, some (negate n frames).1, symbols.afterTokens tokens⟩

/-- The machine takes the tokens, and a sign not tighter than `rank` says then
completes what it holds to their tree on the frames of before. -/
def ReadsChain (rank : Nat) (context : Context) (frames : List Frame) (symbols : Symbols)
    (tokens : List Token) (n : Node) : Prop :=
  ∃ value frames',
    Shifts ⟨context, frames, none, symbols⟩ tokens
      ⟨context, frames', some value, symbols.afterTokens tokens⟩ ∧
    ∀ op, rank ≤ op.rank + 1 → reduce op value frames' = reduce op n frames

theorem ReadsOperand.readsChain {level : Level} {context : Context} {frames : List Frame}
    {symbols : Symbols} {tokens : List Token} {n : Node}
    (h : ReadsOperand context frames symbols tokens n) (hfits : level.Fits frames) :
    ReadsChain level.rank context frames symbols tokens n := by
  rw [ReadsOperand, hfits.negate] at h
  exact ⟨n, frames, h, fun _ _ => rfl⟩

/-- A parenthesis closes. -/
theorem State.step_closing {context : Context} {frames frames' : List Frame} {value inner : Node}
    {symbols : Symbols} {c : String} (h : reduce .bicond value frames = (inner, .paren :: frames')) :
    State.step ⟨context, frames, some value, symbols⟩ ⟨.closing, c⟩ =
      .shift ⟨context, (negate (.group inner) frames').2, some (negate (.group inner) frames').1,
        symbols⟩ := by
  simp only [State.step, State.onOperator, h, if_true]
  rfl

/-- **The machine reads formulas.** An operand, also with negations in front, is
read wherever one is due; a chain is read whole on frames that it fits. -/
theorem Derives.reads {index : String → Int} {level : Level} {tokens : List Token} {n : Node}
    (h : Derives index level tokens n) {context : Context} (hc : context.isPlace)
    (frames : List Frame) (symbols : Symbols)
    (hi : Agrees index (symbols.afterTokens tokens)) :
    (level.rank = 0 → ReadsOperand context frames symbols tokens n) ∧
    (level.Fits frames → ReadsChain level.rank context frames symbols tokens n) := by
  induction h generalizing frames symbols with
  | identifier name =>
    have hindex : index name = ((symbols.intern name).1 : Int) := by
      rw [Symbols.intern_fst]
      exact hi name (Symbols.mem_intern.2 (.inr rfl))
    have hread : ReadsOperand context frames symbols [⟨.identifier, name⟩] (.atom (index name)) := by
      rw [hindex]
      exact .one rfl
    exact ⟨fun _ => hread, hread.readsChain⟩
  | @parens tokens inner o c _ ih =>
    have hsymbols : symbols.afterTokens (⟨.opening, o⟩ :: tokens ++ [⟨.closing, c⟩]) =
        symbols.afterTokens tokens := by
      rw [List.cons_append, Symbols.afterTokens_sign _ (by simp), Symbols.afterTokens_append]
      rfl
    obtain ⟨value, frames', hrun, hreduce⟩ := (ih (.paren :: frames) symbols (hsymbols ▸ hi)).2 trivial
    have hread : ReadsOperand context frames symbols (⟨.opening, o⟩ :: tokens ++ [⟨.closing, c⟩])
        (.group inner) := by
      rw [ReadsOperand, hsymbols]
      refine .cons rfl (hrun.trans (.one ?_))
      exact State.step_closing (hreduce .bicond (by decide))
    exact ⟨fun _ => hread, hread.readsChain⟩
  | operand _ ih => exact ⟨fun _ => (ih frames symbols hi).1 rfl, (ih frames symbols hi).2⟩
  | @negation tokens n sign _ ih =>
    have hsymbols := symbols.afterTokens_sign (t := ⟨.negation, sign⟩) (by simp) tokens
    have hread : ReadsOperand context frames symbols (⟨.negation, sign⟩ :: tokens) (.neg n) := by
      have hrun := (ih (.negation :: frames) symbols (hsymbols ▸ hi)).1 rfl
      rw [ReadsOperand, hsymbols]
      refine .cons ?_ hrun
      have hplace : ¬ (context = .operand ∧ frames = []) := by
        rintro ⟨rfl, -⟩
        cases hc
      simp [State.step, State.onOperand, hplace]
    exact ⟨fun _ => hread, hread.readsChain⟩
  | @joined op tokens n _ ih =>
    refine ⟨fun h => absurd h (Nat.succ_ne_zero _), fun hfits => ?_⟩
    have hle : (Level.joinedBy op).rank ≤ (Level.chain op).rank := by
      rw [Level.rank_joinedBy]
      exact Nat.le_succ _
    obtain ⟨value, frames', hrun, hreduce⟩ := (ih frames symbols hi).2 (hfits.mono hle)
    exact ⟨value, frames', hrun, fun op' hop => hreduce op' (Nat.le_trans hle hop)⟩
  | @chain op left right l r sign _ _ ihl ihr =>
    refine ⟨fun h => absurd h (Nat.succ_ne_zero _), fun hfits => ?_⟩
    have hsymbols : symbols.afterTokens (left ++ ⟨.connective op, sign⟩ :: right) =
        (symbols.afterTokens left).afterTokens right := by
      rw [Symbols.afterTokens_append, Symbols.afterTokens_sign _ (by simp)]
    rw [hsymbols] at hi
    obtain ⟨value, frames₁, hrunl, hreducel⟩ :=
      (ihl frames symbols (hi.of_grows (Symbols.grows_afterTokens ..))).2 hfits
    have hfitsr : (Level.joinedBy op).Fits (.leftOf l op :: frames) :=
      Nat.le_of_eq (Level.rank_joinedBy op)
    obtain ⟨value', frames₂, hrunr, hreducer⟩ := (ihr (.leftOf l op :: frames) _ hi).2 hfitsr
    refine ⟨value', frames₂, ?_, fun op' hop => ?_⟩
    · rw [hsymbols]
      refine hrunl.trans (.cons ?_ hrunr)
      simp [State.step, State.onOperator, hreducel op (Nat.le_refl _), hfits.reduce]
    · have hle : op.rank ≤ op'.rank := Nat.le_of_succ_le_succ hop
      have hjoin : (Level.joinedBy op).rank ≤ op'.rank + 1 := by
        rw [Level.rank_joinedBy]
        exact Nat.le_succ_of_le hle
      rw [hreducer op' hjoin, reduce, if_pos hle]

/-! ## Statements -/

/-- A formula has been read up to here, and nothing waits around it. -/
def HasRead (s : State) (n : Node) : Prop :=
  ∃ value, s.value = some value ∧ reduce .bicond value s.frames = (n, [])

theorem HasRead.finish {s : State} {n : Node} (h : HasRead s n) :
    s.finish = s.context.finish n := by
  obtain ⟨value, hv, hr⟩ := h
  simp only [State.finish, hv, hr]

theorem HasRead.step {s : State} {n : Node} (h : HasRead s n) {t : Token}
    (ht : ∀ op, t.kind ≠ .connective op) : s.step t = s.afterFormula n t := by
  obtain ⟨value, hv, hr⟩ := h
  rw [State.step, hv]
  dsimp only
  rw [State.onOperator]
  split
  next op hop => exact absurd hop (ht op)
  next => rw [hr]

/-! The signs between the formulas of a statement. -/

section Signs

variable {s : State} {n : Node}

theorem HasRead.statement_binds {i : Int} (h : HasRead s (.atom i))
    (hc : s.context = .statement) (sign : String) :
    s.step ⟨.binds, sign⟩ = .shift ⟨.bindingLhs (.atom i), [], none, s.symbols⟩ := by
  simp [h.step, State.afterFormula, hc, State.enter]

theorem HasRead.statement_applies (h : HasRead s n) (hc : s.context = .statement)
    (sign : String) : s.step ⟨.applies, sign⟩ = .shift ⟨.ruleLhs n, [], none, s.symbols⟩ := by
  cases n <;> simp [h.step, State.afterFormula, hc, State.enter]

theorem HasRead.bindingLhs_equals (h : HasRead s n) {target : Node}
    (hc : s.context = .bindingLhs target) (sign : String) :
    s.step ⟨.equals, sign⟩ = .shift ⟨.bindingRhs target n, [], none, s.symbols⟩ := by
  simp [h.step, State.afterFormula, hc, State.enter]

theorem HasRead.ruleLhs_equals (h : HasRead s n) {target : Node}
    (hc : s.context = .ruleLhs target) (sign : String) :
    s.step ⟨.equals, sign⟩ = .shift ⟨.ruleRhs target n, [], none, s.symbols⟩ := by
  simp [h.step, State.afterFormula, hc, State.enter]

theorem HasRead.ruleRhs_applies (h : HasRead s n) {target lhs : Node}
    (hc : s.context = .ruleRhs target lhs) (sign : String) :
    s.step ⟨.applies, sign⟩ =
      .shift ⟨.ruleLhs (.application target (.equivalence lhs n)), [], none, s.symbols⟩ := by
  simp [h.step, State.afterFormula, hc, State.enter]

end Signs

theorem Derives.hasRead {index : String → Int} {tokens : List Token} {n : Node}
    (h : Formula index tokens n) (context : Context) (hc : context.isPlace) {symbols : Symbols}
    (hi : Agrees index (symbols.afterTokens tokens)) :
    ∃ s, Shifts ⟨context, [], none, symbols⟩ tokens s ∧ HasRead s n ∧ s.context = context ∧
      s.symbols = symbols.afterTokens tokens := by
  obtain ⟨value, frames, hrun, hreduce⟩ := (h.reads hc [] symbols hi).2 trivial
  exact ⟨_, hrun, ⟨value, rfl, hreduce .bicond (by decide)⟩, rfl, rfl⟩

/-- The machine may end here with the tree `n`, or go on to apply a rule to it. -/
def Complete (s : State) (n : Node) : Prop :=
  s.finish = .ok n ∧
    ∀ sign, s.step ⟨.applies, sign⟩ = .shift ⟨.ruleLhs n, [], none, s.symbols⟩

theorem Rewrites.reads {index : String → Int} {tokens : List Token} {n : Node}
    (h : Rewrites index tokens n) {symbols : Symbols}
    (hi : Agrees index (symbols.afterTokens tokens)) :
    ∃ s, Shifts (.start .statement symbols) tokens s ∧ Complete s n ∧
      s.symbols = symbols.afterTokens tokens := by
  induction h with
  | formula h =>
    obtain ⟨s, hrun, hread, hcontext, hsymbols⟩ := h.hasRead .statement rfl hi
    refine ⟨s, hrun, ⟨?_, fun sign => ?_⟩, hsymbols⟩
    · rw [hread.finish, hcontext]
      rfl
    · exact hread.statement_applies hcontext sign
  | @apply tokens left right target lhs rhs applies equals _ hl hr ih =>
    have hleft : symbols.afterTokens (tokens ++ ⟨.applies, applies⟩ :: left) =
        (symbols.afterTokens tokens).afterTokens left := by
      rw [Symbols.afterTokens_append, Symbols.afterTokens_sign _ (by simp)]
    have hall : symbols.afterTokens
          (tokens ++ ⟨.applies, applies⟩ :: left ++ ⟨.equals, equals⟩ :: right) =
        ((symbols.afterTokens tokens).afterTokens left).afterTokens right := by
      rw [Symbols.afterTokens_append, hleft, Symbols.afterTokens_sign _ (by simp)]
    rw [hall] at hi ⊢
    have hil := hi.of_grows (Symbols.grows_afterTokens _ right)
    obtain ⟨s₁, hrun₁, hcomplete, hsymbols₁⟩ := ih (hil.of_grows (Symbols.grows_afterTokens _ left))
    obtain ⟨s₂, hrun₂, hread₂, hcontext₂, hsymbols₂⟩ := hl.hasRead (.ruleLhs target) rfl hil
    obtain ⟨s₃, hrun₃, hread₃, hcontext₃, hsymbols₃⟩ :=
      hr.hasRead (.ruleRhs target lhs) rfl hi
    refine ⟨s₃, ?_, ⟨?_, fun sign => ?_⟩, hsymbols₃⟩
    · have hrun : Shifts (.start .statement symbols) (tokens ++ ⟨.applies, applies⟩ :: left) s₂ :=
        hrun₁.trans (.cons (hcomplete.2 applies) (hsymbols₁ ▸ hrun₂))
      have hequals := hread₂.ruleLhs_equals hcontext₂ equals
      exact hrun.trans (.cons hequals (hsymbols₂ ▸ hrun₃))
    · rw [hread₃.finish, hcontext₃]
      rfl
    · exact hread₃.ruleRhs_applies hcontext₃ sign

/-- **What the grammar derives, the machine reads to its end.** -/
theorem Statement.reads {index : String → Int} {tokens : List Token} {n : Node}
    (h : Statement index tokens n) {symbols : Symbols}
    (hi : Agrees index (symbols.afterTokens tokens)) :
    ∃ s, Shifts (.start .statement symbols) tokens s ∧ s.finish = .ok n ∧
      s.symbols = symbols.afterTokens tokens := by
  cases h with
  | rewrites h =>
    obtain ⟨s, hrun, hcomplete, hsymbols⟩ := h.reads hi
    exact ⟨s, hrun, hcomplete.1, hsymbols⟩
  | @byName tokens target applies name h =>
    have hall : symbols.afterTokens (tokens ++ [⟨.applies, applies⟩, ⟨.identifier, name⟩]) =
        (symbols.afterTokens tokens).afterTokens [⟨.identifier, name⟩] := by
      rw [Symbols.afterTokens_append, Symbols.afterTokens_sign _ (by simp)]
    rw [hall] at hi ⊢
    obtain ⟨s₁, hrun₁, hcomplete, hsymbols₁⟩ := h.reads (hi.of_grows (Symbols.grows_afterTokens ..))
    obtain ⟨s₂, hrun₂, hread₂, hcontext₂, hsymbols₂⟩ :=
      (Formula.name index name).hasRead (.ruleLhs target) rfl hi
    refine ⟨s₂, hrun₁.trans (.cons (hcomplete.2 applies) ?_), ?_, hsymbols₂⟩
    · rw [hsymbols₁]
      exact hrun₂
    · rw [hread₂.finish, hcontext₂]
      rfl
  | @binding left right lhs rhs name binds equals hl hr =>
    have hname := Formula.name index name
    have hleft : symbols.afterTokens (⟨.identifier, name⟩ :: ⟨.binds, binds⟩ :: left) =
        (symbols.afterTokens [⟨.identifier, name⟩]).afterTokens left := by
      rw [← List.singleton_append, Symbols.afterTokens_append, Symbols.afterTokens_sign _ (by simp)]
    have hall : symbols.afterTokens
          (⟨.identifier, name⟩ :: ⟨.binds, binds⟩ :: left ++ ⟨.equals, equals⟩ :: right) =
        ((symbols.afterTokens [⟨.identifier, name⟩]).afterTokens left).afterTokens right := by
      rw [Symbols.afterTokens_append, hleft, Symbols.afterTokens_sign _ (by simp)]
    rw [hall] at hi ⊢
    have hil := hi.of_grows (Symbols.grows_afterTokens _ right)
    obtain ⟨s₁, hrun₁, hread₁, hcontext₁, hsymbols₁⟩ :=
      hname.hasRead .statement rfl (hil.of_grows (Symbols.grows_afterTokens _ left))
    obtain ⟨s₂, hrun₂, hread₂, hcontext₂, hsymbols₂⟩ :=
      hl.hasRead (.bindingLhs (.atom (index name))) rfl hil
    obtain ⟨s₃, hrun₃, hread₃, hcontext₃, hsymbols₃⟩ :=
      hr.hasRead (.bindingRhs (.atom (index name)) lhs) rfl hi
    have hbinds := hread₁.statement_binds hcontext₁ binds
    have hequals := hread₂.bindingLhs_equals hcontext₂ equals
    have hrun : Shifts (.start .statement symbols)
        (⟨.identifier, name⟩ :: ⟨.binds, binds⟩ :: left) s₂ :=
      hrun₁.trans (.cons hbinds (hsymbols₁ ▸ hrun₂))
    refine ⟨s₃, hrun.trans (.cons hequals (hsymbols₂ ▸ hrun₃)), ?_, hsymbols₃⟩
    rw [hread₃.finish, hcontext₃]
    rfl

end Propositional.Grammar
