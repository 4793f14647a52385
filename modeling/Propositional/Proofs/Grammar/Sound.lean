/-
What the machine reads, the grammar derives. `Reads` is the invariant: the
tokens taken so far are those of the formulas and signs that stand before the
formula being read (`Before`), then those of its frames (`Stack`), then those of
the operand just completed. Every step keeps it (`Reads.step`), and at the end
of the input it makes a derivation (`Reads.finish`).
-/
import Propositional.Proofs.Grammar.Accept

namespace Propositional.Grammar

open Propositional.Parser

theorem Level.eq_chain {level : Level} {op : Connective} (h : level.rank = op.rank + 1) :
    level = .chain op := by
  cases level with
  | operand | negation => exact absurd h (Nat.succ_ne_zero _).symm
  | chain op' => rw [Connective.rank_injective (Nat.succ.inj h)]

theorem Derives.toNegation {index : String → Int} {level : Level} {tokens : List Token} {n : Node}
    (h : Derives index level tokens n) (hle : level.rank = 0) :
    Derives index .negation tokens n := by
  cases level with
  | operand => exact .operand h
  | negation => exact h
  | chain op => exact absurd hle (Nat.succ_ne_zero _)

theorem Derives.toChain {index : String → Int} {level : Level} {tokens : List Token} {n : Node}
    (h : Derives index level tokens n) {op : Connective} (hle : level.rank ≤ op.rank + 1) :
    Derives index (.chain op) tokens n := by
  have link : ∀ op, (level.rank ≤ op.rank → Derives index (.joinedBy op) tokens n) →
      level.rank ≤ op.rank + 1 → Derives index (.chain op) tokens n := by
    intro op joined hle
    rcases Nat.le_or_eq_of_le_succ hle with hle | heq
    · exact .joined (joined hle)
    · exact Level.eq_chain heq ▸ h
  have conj := link .conj fun hle => h.toNegation (Nat.le_zero.1 hle)
  have disj := link .disj conj
  have cond := link .cond disj
  cases op with
  | conj => exact conj hle
  | disj => exact disj hle
  | cond => exact cond hle
  | bicond => exact link .bicond cond hle

theorem Derives.toJoined {index : String → Int} {level : Level} {tokens : List Token} {n : Node}
    (h : Derives index level tokens n) {op : Connective} (hle : level.rank ≤ op.rank) :
    Derives index (.joinedBy op) tokens n := by
  cases op with
  | conj => exact h.toNegation (Nat.le_zero.1 hle)
  | disj | cond | bicond => exact h.toChain hle

/-- The tokens from which frames come, the innermost frame's last. -/
inductive Stack (index : String → Int) : List Frame → List Token → Prop
  | nil : Stack index [] []
  | negation {frames : List Frame} {tokens : List Token} (sign : String) :
      Stack index frames tokens →
      Stack index (.negation :: frames) (tokens ++ [⟨.negation, sign⟩])
  | paren {frames : List Frame} {tokens : List Token} (sign : String) :
      Stack index frames tokens →
      Stack index (.paren :: frames) (tokens ++ [⟨.opening, sign⟩])
  | leftOf {frames : List Frame} {tokens left : List Token} {l : Node} {op : Connective}
      (sign : String) :
      Stack index frames tokens → (Level.chain op).Fits frames →
      Derives index (.chain op) left l →
      Stack index (.leftOf l op :: frames) (tokens ++ (left ++ [⟨.connective op, sign⟩]))

/-- Completing left sides makes a chain of what they and the value were. -/
theorem Stack.reduce {index : String → Int} {frames frames' : List Frame} {value n : Node}
    {stack tokens : List Token} {level : Level} {op : Connective} (hs : Stack index frames stack)
    (hd : Derives index level tokens value) (hfits : level.Fits frames)
    (hle : level.rank ≤ op.rank + 1) (h : reduce op value frames = (n, frames')) :
    ∃ stack' tokens', stack ++ tokens = stack' ++ tokens' ∧ Stack index frames' stack' ∧
      Derives index (.chain op) tokens' n ∧ (Level.chain op).Fits frames' := by
  induction hs generalizing value tokens level with
  | nil =>
    cases h
    exact ⟨[], tokens, rfl, .nil, hd.toChain hle, trivial⟩
  | negation => exact absurd hfits id
  | @paren frames stack sign hs =>
    cases h
    exact ⟨_, tokens, rfl, .paren sign hs, hd.toChain hle, trivial⟩
  | @leftOf frames stack left l op' sign hs hfits' hl ih =>
    rw [Parser.reduce] at h
    by_cases hop : op'.rank ≤ op.rank
    · rw [if_pos hop] at h
      obtain ⟨stack', tokens', htokens, hrest⟩ :=
        ih (.chain sign hl (hd.toJoined hfits)) hfits' (Nat.succ_le_succ hop) h
      refine ⟨stack', tokens', ?_, hrest⟩
      rw [← htokens]
      simp
    · rw [if_neg hop] at h
      cases h
      exact ⟨_, tokens, rfl, .leftOf sign hs hfits' hl, hd.toChain hle, Nat.lt_of_not_le hop⟩

theorem Stack.reduce_bicond {index : String → Int} {frames frames' : List Frame} {value n : Node}
    {stack tokens : List Token} (hs : Stack index frames stack)
    (hd : Derives index .negation tokens value) (hfits : Level.negation.Fits frames)
    (h : Parser.reduce .bicond value frames = (n, frames')) :
    (frames' = [] ∧ Formula index (stack ++ tokens) n) ∨
    ∃ frames₀ stack₀ sign tokens', frames' = .paren :: frames₀ ∧ Stack index frames₀ stack₀ ∧
      Formula index tokens' n ∧ stack ++ tokens = stack₀ ++ (⟨.opening, sign⟩ :: tokens') := by
  obtain ⟨stack', tokens', htokens, hs', hd', hfits'⟩ := hs.reduce hd hfits (Nat.zero_le _) h
  cases hs' with
  | nil => exact .inl ⟨rfl, htokens ▸ hd'⟩
  | negation => exact absurd hfits' id
  | @paren frames₀ stack₀ sign hs' =>
    refine .inr ⟨frames₀, stack₀, sign, tokens', rfl, hs', hd', ?_⟩
    rw [htokens]
    simp
  | @leftOf _ _ _ _ op =>
    -- no connective is looser than `<->`
    have hrank : Connective.bicond.rank < op.rank := hfits'
    cases op <;> exact absurd hrank (by decide)

/-! ## The invariant of a run -/

/-- The tokens of a statement before the formula that a context is the place of. -/
inductive Before (index : String → Int) : Context → List Token → Prop
  | statement : Before index .statement []
  | bindingLhs (name binds : String) :
      Before index (.bindingLhs (.atom (index name))) [⟨.identifier, name⟩, ⟨.binds, binds⟩]
  | bindingRhs {target lhs : Node} {tokens left : List Token} (equals : String) :
      Before index (.bindingLhs target) tokens → Formula index left lhs →
      Before index (.bindingRhs target lhs) (tokens ++ (left ++ [⟨.equals, equals⟩]))
  | ruleLhs {target : Node} {tokens : List Token} (applies : String) :
      Rewrites index tokens target →
      Before index (.ruleLhs target) (tokens ++ [⟨.applies, applies⟩])
  | ruleRhs {target lhs : Node} {tokens left : List Token} (equals : String) :
      Before index (.ruleLhs target) tokens → Formula index left lhs →
      Before index (.ruleRhs target lhs) (tokens ++ (left ++ [⟨.equals, equals⟩]))

/-- The machine has come to a state by taking these tokens. -/
inductive Reads (index : String → Int) : State → List Token → Prop
  | due {context : Context} {frames : List Frame} {before stack : List Token} (symbols : Symbols) :
      Before index context before → Stack index frames stack →
      Reads index ⟨context, frames, none, symbols⟩ (before ++ stack)
  | operand {context : Context} {frames : List Frame} {value : Node} {symbols : Symbols}
      {before stack tokens : List Token} :
      Before index context before → Stack index frames stack →
      Derives index .negation tokens value → Level.negation.Fits frames →
      Reads index ⟨context, frames, some value, symbols⟩ (before ++ (stack ++ tokens))

theorem Reads.negate {index : String → Int} {context : Context} {frames : List Frame} {n : Node}
    (symbols : Symbols) {before stack tokens : List Token} (hb : Before index context before)
    (hs : Stack index frames stack) (hd : Derives index .negation tokens n) :
    Reads index ⟨context, (negate n frames).2, some (negate n frames).1, symbols⟩
      (before ++ (stack ++ tokens)) := by
  induction hs generalizing n tokens with
  | nil => exact .operand hb .nil hd trivial
  | @negation frames stack sign _ ih =>
    have h := ih (.negation sign hd)
    simpa [Parser.negate] using h
  | paren sign hs => exact .operand hb (.paren sign hs) hd trivial
  | leftOf sign hs hfits hl => exact .operand hb (.leftOf sign hs hfits hl) hd (Nat.zero_le _)

theorem Reads.enter {index : String → Int} {context : Context} {tokens : List Token}
    (h : Before index context tokens) (symbols : Symbols) :
    Reads index ⟨context, [], none, symbols⟩ tokens := by
  simpa using Reads.due symbols h .nil

/-- Where a formula ends, the next token of the statement opens the next place. -/
theorem Reads.afterFormula {index : String → Int} {s s' : State} {n : Node} {t : Token}
    {before tokens : List Token} (hb : Before index s.context before)
    (hf : Formula index tokens n) (h : s.afterFormula n t = .shift s') :
    Reads index s' (before ++ (tokens ++ [t])) := by
  obtain ⟨context, frames, value, symbols⟩ := s
  obtain ⟨kind, text⟩ := t
  cases hb with
  | statement =>
    simp only [State.afterFormula] at h
    split at h
    next i =>
      cases h
      obtain ⟨name, rfl, rfl⟩ := hf.of_atom
      exact .enter (.bindingLhs name text) symbols
    next => cases h
    next =>
      cases h
      exact .enter (.ruleLhs text (.formula hf)) symbols
    next => cases h
  | bindingLhs name binds =>
    simp only [State.afterFormula] at h
    split at h
    next hk =>
      cases hk
      cases h
      exact .enter (.bindingRhs text (.bindingLhs name binds) hf) symbols
    next => cases h
  | bindingRhs => cases h
  | ruleLhs applies hr =>
    simp only [State.afterFormula] at h
    split at h
    next hk =>
      cases hk
      cases h
      exact .enter (.ruleRhs text (.ruleLhs applies hr) hf) symbols
    next => cases h
  | ruleRhs equals hb hl =>
    simp only [State.afterFormula] at h
    split at h
    next hk =>
      cases hk
      cases h
      cases hb with
      | ruleLhs applies hr =>
        have hrule := Rewrites.apply applies equals hr hl hf
        simpa using Reads.enter (.ruleLhs text hrule) symbols
    next => cases h

/-- **Every step keeps the invariant.** -/
theorem Reads.step {index : String → Int} {s s' : State} {tokens : List Token} {t : Token}
    (h : Reads index s tokens) (hi : Agrees index s'.symbols) (hstep : s.step t = .shift s') :
    Reads index s' (tokens ++ [t]) := by
  obtain ⟨kind, text⟩ := t
  cases h with
  | @due context frames before stack symbols hb hs =>
    simp only [State.step, State.onOperand] at hstep
    split at hstep
    next =>
      cases hstep
      have hindex : ((symbols.intern text).1 : Int) = index text := by
        rw [Symbols.intern_fst]
        exact (hi text (Symbols.mem_intern.2 (.inr rfl))).symm
      have hname : Derives index .negation [⟨.identifier, text⟩] (.atom (symbols.intern text).1) :=
        hindex ▸ .operand (.identifier text)
      rw [List.append_assoc]
      exact .negate _ hb hs hname
    next =>
      split at hstep
      · cases hstep
      · cases hstep
        simpa using Reads.due symbols hb (.negation text hs)
    next =>
      cases hstep
      simpa using Reads.due symbols hb (.paren text hs)
    next => cases hstep
  | @operand context frames value symbols before stack tokens hb hs hd hfits =>
    simp only [State.step, State.onOperator] at hstep
    split at hstep
    next op =>
      cases hstep
      obtain ⟨stack', tokens', htokens, hs', hd', hfits'⟩ :=
        hs.reduce hd hfits (Nat.zero_le (op.rank + 1)) rfl
      have := Reads.due symbols hb (.leftOf text hs' hfits' hd')
      rw [htokens]
      simpa using this
    next kind _ =>
      split at hstep
      next inner frames' hreduce =>
        split at hstep
        next hk =>
          cases hk
          cases hstep
          rcases hs.reduce_bicond hd hfits hreduce with
            ⟨hnil, -⟩ | ⟨frames₀, stack₀, sign, tokens', hparen, hs₀, hf, htokens⟩
          · cases hnil
          · cases hparen
            have := Reads.negate symbols hb hs₀ (.operand (.parens sign text hf))
            rw [htokens]
            simpa using this
        next => cases hstep
      next inner frames' hne hreduce =>
        rcases hs.reduce_bicond hd hfits hreduce with
          ⟨rfl, hf⟩ | ⟨frames₀, stack₀, sign, tokens', rfl, -⟩
        · rw [List.append_assoc]
          exact .afterFormula hb hf hstep
        · exact (hne _ rfl).elim

theorem Reads.shifts {index : String → Int} {s s' : State} {before tokens : List Token}
    (h : Reads index s before) (hrun : Shifts s tokens s') (hi : Agrees index s'.symbols) :
    Reads index s' (before ++ tokens) := by
  induction hrun generalizing before with
  | nil => simpa using h
  | @cons s s₁ s₂ t ts hstep hrun ih =>
    have hgrows : s₁.symbols.Grows s₂.symbols := hrun.symbols ▸ Symbols.grows_afterTokens ..
    simpa using ih (h.step (hi.of_grows hgrows) hstep) hi

/-! ## The end of a statement -/

theorem Reads.formula {index : String → Int} {s : State} {tokens : List Token} {value n : Node}
    {frames : List Frame} (h : Reads index s tokens) (hv : s.value = some value)
    (hr : reduce .bicond value s.frames = (n, frames))
    (hne : ∀ rest, frames ≠ .paren :: rest) :
    ∃ before after, tokens = before ++ after ∧ Before index s.context before ∧
      Formula index after n := by
  cases h with
  | due => cases hv
  | @operand context frames value symbols before stack tokens hb hs hd hfits =>
    cases hv
    rcases hs.reduce_bicond hd hfits hr with ⟨-, hf⟩ | ⟨_, _, _, _, hparen, -⟩
    · exact ⟨before, stack ++ tokens, rfl, hb, hf⟩
    · exact absurd hparen (hne _)

/-- The end of the input after a formula makes it the last of its statement. -/
theorem Before.finish {index : String → Int} {context : Context} {before tokens : List Token}
    {n result : Node} (hb : Before index context before) (hf : Formula index tokens n)
    (h : context.finish n = .ok result) : Statement index (before ++ tokens) result := by
  cases hb with
  | statement =>
    cases h
    exact .rewrites (.formula hf)
  | bindingLhs => cases h
  | bindingRhs equals hb hl =>
    cases h
    cases hb with
    | bindingLhs name binds => simpa using Statement.binding name binds equals hl hf
  | ruleLhs applies hr =>
    simp only [Context.finish] at h
    split at h
    next i =>
      cases h
      obtain ⟨name, rfl, rfl⟩ := hf.of_atom
      simpa using Statement.byName applies name hr
    next => cases h
  | ruleRhs equals hb hl =>
    cases h
    cases hb with
    | ruleLhs applies hr => simpa using Statement.rewrites (.apply applies equals hr hl hf)

/-- **What the machine reads to its end, the grammar derives.** -/
theorem Reads.finish {index : String → Int} {s : State} {tokens : List Token} {n : Node}
    (h : Reads index s tokens) (hf : s.finish = .ok n) : Statement index tokens n := by
  rw [State.finish] at hf
  split at hf
  next => cases hf
  next value hv =>
    split at hf
    next => cases hf
    next formula frames hne hr =>
      have hparen : ∀ rest, frames ≠ .paren :: rest := by
        rintro rest rfl
        exact hne rest rfl
      obtain ⟨before, after, rfl, hb, hformula⟩ := h.formula hv hr hparen
      exact hb.finish hformula hf

/-! ## Failures -/

theorem State.afterFormula_shown {s : State} {value n : Node} {t : Token} {failure : Failure}
    (h : s.afterFormula value t = .fail failure) (hn : failure.shownNode? = some n) :
    value = n := by
  obtain ⟨context, frames, held, symbols⟩ := s
  cases context <;> simp only [State.afterFormula, State.enter] at h <;> (try split at h) <;>
    cases h <;> cases hn
  rfl

theorem Context.finish_shown {context : Context} {value n : Node} {failure : Failure}
    (h : context.finish value = .error failure) (hn : failure.shownNode? = some n) :
    value = n := by
  cases context <;> simp only [Context.finish] at h <;> (try split at h) <;> cases h <;> cases hn
  rfl

theorem Reads.shown_of_step {index : String → Int} {s : State} {tokens : List Token} {t : Token}
    {failure : Failure} (h : Reads index s tokens) (hstep : s.step t = .fail failure) {n : Node}
    (hn : failure.shownNode? = some n) :
    ∃ before after, tokens = before ++ after ∧ Formula index after n := by
  rw [State.step] at hstep
  split at hstep
  next value hv =>
    rw [State.onOperator] at hstep
    split at hstep
    next => cases hstep
    next =>
      split at hstep
      next =>
        split at hstep
        next => cases hstep
        next =>
          cases hstep
          cases hn
      next formula frames hne hr =>
        have hparen : ∀ rest, frames ≠ .paren :: rest := by
          rintro rest rfl
          exact hne rest rfl
        obtain ⟨before, after, htokens, -, hformula⟩ := h.formula hv hr hparen
        exact ⟨before, after, htokens, State.afterFormula_shown hstep hn ▸ hformula⟩
  next =>
    rw [State.onOperand] at hstep
    repeat' split at hstep
    all_goals cases hstep <;> cases hn

theorem Reads.shown_of_finish {index : String → Int} {s : State} {tokens : List Token}
    {failure : Failure} (h : Reads index s tokens) (hf : s.finish = .error failure) {n : Node}
    (hn : failure.shownNode? = some n) :
    ∃ before after, tokens = before ++ after ∧ Formula index after n := by
  rw [State.finish] at hf
  split at hf
  next =>
    cases hf
    cases hn
  next value hv =>
    split at hf
    next =>
      cases hf
      cases hn
    next formula frames hne hr =>
      have hparen : ∀ rest, frames ≠ .paren :: rest := by
        rintro rest rfl
        exact hne rest rfl
      obtain ⟨before, after, htokens, -, hformula⟩ := h.formula hv hr hparen
      exact ⟨before, after, htokens, Context.finish_shown hf hn ▸ hformula⟩

end Propositional.Grammar
