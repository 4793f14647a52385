/-
How deep the machine goes. The depth at which a source is read is the greatest of
the states passed through (`peak`), and of a state it depends on the kinds of the frames
alone. So two runs over the same tokens from states that wait for the same
(`State.Alike`) are equally deep, whatever has been read before. After a sign between
the formulas of a statement nothing waits, so what follows the sign adds the same
depth to whatever it follows (`depth_joined`).
-/
import Propositional.Proofs.Grammar.Halting

namespace Propositional.Parser

/-- The greatest depth of the states that the machine passes through. -/
def State.peak (s : State) : List Token → Nat
  | [] => 0
  | t :: ts =>
    match s.step t with
    | .shift next => max next.depth (next.peak ts)
    | .done _ | .fail _ => 0

theorem run_depth {s : State} (hs : s.context.isPlace) (diagnostics : List Diagnostic)
    (tokens : List Token) : (run s diagnostics (tokens.map .token)).depth = s.peak tokens := by
  induction tokens generalizing s with
  | nil => rfl
  | cons t ts ih =>
    rw [List.map_cons, run, State.settled?_eq_none hs, State.peak]
    dsimp only
    cases hstep : s.step t with
    | shift next => simp only [ih (State.step_isPlace hs hstep)]
    | done result => rfl
    | fail failure => rfl

theorem parse_depth (tokens : List Token) (symbols : Symbols) :
    (Stream.ofTokens tokens symbols).parse.depth =
      (State.start .statement symbols).peak tokens := by
  rw [(parse_eq_of_read _).1, read_ofTokens]
  exact run_depth rfl [] tokens

theorem Shifts.peak_append {s s' : State} {ts : List Token} (h : Shifts s ts s')
    (us : List Token) : s.peak (ts ++ us) = max (s.peak ts) (s'.peak us) := by
  induction h with
  | nil s => simp [State.peak]
  | cons hstep _ ih =>
    rw [List.cons_append, State.peak, State.peak]
    simp only [hstep, ih, Nat.max_assoc]

/-- A run over a list of tokens comes by a state between any two of them. -/
theorem Shifts.split {s s' : State} {ts us : List Token} (h : Shifts s (ts ++ us) s') :
    ∃ middle, Shifts s ts middle ∧ Shifts middle us s' := by
  induction ts generalizing s with
  | nil => exact ⟨s, .nil s, h⟩
  | cons t ts ih =>
    cases h with
    | cons hstep hrest =>
      obtain ⟨middle, hfirst, hlast⟩ := ih hrest
      exact ⟨middle, .cons hstep hfirst, hlast⟩

/-! ## States that wait for the same -/

/-- The frame with the left side that it holds left out. -/
def Frame.bare : Frame → Frame
  | negation => negation
  | paren => paren
  | leftOf _ op => leftOf (.stray none) op

/-- Two states that have the same frames up to the left sides held in them, and that both wait
for an operand or both have one. -/
structure State.Alike (s s' : State) : Prop where
  frames : s.frames.map Frame.bare = s'.frames.map Frame.bare
  value : s.value.isSome = s'.value.isSome

theorem State.Alike.depth {s s' : State} (h : s.Alike s') : s.depth = s'.depth := by
  have hweight : ∀ (frames : List Frame) (depth : Nat),
      frames.foldl (fun depth frame => depth + frame.weight) depth =
        (frames.map Frame.bare).foldl (fun depth frame => depth + frame.weight) depth := by
    intro frames
    induction frames with
    | nil => exact fun _ => rfl
    | cons frame frames ih =>
      intro depth
      cases frame <;> exact ih _
  rw [State.depth, State.depth, hweight, h.frames, ← hweight]

theorem bare_negate (value value' : Node) (frames : List Frame) :
    (negate value frames).2.map Frame.bare = (negate value' (frames.map Frame.bare)).2 := by
  induction frames generalizing value value' with
  | nil => rfl
  | cons frame frames ih =>
    cases frame with
    | negation => exact ih _ _
    | paren | leftOf => rfl

theorem bare_bare (frames : List Frame) :
    (frames.map Frame.bare).map Frame.bare = frames.map Frame.bare := by
  rw [List.map_map]
  refine List.map_congr_left fun frame _ => ?_
  cases frame <;> rfl

theorem bare_reduce (op : Connective) (value value' : Node) (frames : List Frame) :
    (reduce op value frames).2.map Frame.bare =
      (reduce op value' (frames.map Frame.bare)).2.map Frame.bare := by
  induction frames generalizing value value' with
  | nil => rfl
  | cons frame frames ih =>
    cases frame with
    | negation => exact congrArg (Frame.negation :: ·) (bare_bare frames).symm
    | paren => exact congrArg (Frame.paren :: ·) (bare_bare frames).symm
    | leftOf left op' =>
      simp only [reduce, List.map_cons, Frame.bare]
      split
      · exact ih _ _
      · exact congrArg (Frame.leftOf (.stray none) op' :: ·) (bare_bare frames).symm

theorem negate_alike {frames frames' : List Frame}
    (h : frames.map Frame.bare = frames'.map Frame.bare) (value value' : Node) :
    (negate value frames).2.map Frame.bare = (negate value' frames').2.map Frame.bare := by
  rw [bare_negate value (.stray none), bare_negate value' (.stray none), h]

theorem reduce_alike (op : Connective) {frames frames' : List Frame}
    (h : frames.map Frame.bare = frames'.map Frame.bare) (value value' : Node) :
    (reduce op value frames).2.map Frame.bare = (reduce op value' frames').2.map Frame.bare := by
  rw [bare_reduce op value (.stray none), bare_reduce op value' (.stray none), h]

/-- Nothing waits, and an operand is due. -/
def State.IsFresh (s : State) : Prop := s.frames = [] ∧ s.value = none

theorem State.IsFresh.alike {s s' : State} (h : s.IsFresh) (h' : s'.IsFresh) : s.Alike s' := by
  refine ⟨?_, ?_⟩
  · rw [h.1, h'.1]
  · rw [h.2, h'.2]

theorem State.afterFormula_fresh {s s' : State} {value : Node} {t : Token}
    (h : s.afterFormula value t = .shift s') : s'.IsFresh := by
  obtain ⟨context, frames, held, symbols⟩ := s
  cases context <;> simp only [afterFormula, enter] at h <;> (try split at h) <;> cases h <;>
    exact ⟨rfl, rfl⟩

/-- After a sign that is no connective, either a parenthesis has been closed or nothing waits. -/
theorem State.onOperator_cases {s s' : State} {value : Node} {t : Token}
    (hkind : ∀ op, t.kind ≠ .connective op) (h : s.onOperator value t = .shift s') :
    (∃ inner frames, reduce .bicond value s.frames = (inner, .paren :: frames) ∧
        t.kind = .closing ∧ s' = s.withOperand s.symbols (.group inner) frames) ∨
      s'.IsFresh ∧ ∀ frames, (reduce .bicond value s.frames).2 ≠ .paren :: frames := by
  rw [onOperator] at h
  split at h
  · next op hop => exact absurd hop (hkind op)
  · split at h
    · next inner frames hreduce =>
      split at h
      · next hclosing =>
        cases h
        exact .inl ⟨inner, frames, hreduce, hclosing, rfl⟩
      · cases h
    · next inner rest hopen hreduce =>
      refine .inr ⟨afterFormula_fresh h, fun frames hparen => ?_⟩
      rw [hreduce] at hparen
      exact hopen frames hparen

theorem head_bare {frames frames' : List Frame} (h : frames.map Frame.bare = frames'.map Frame.bare)
    {rest : List Frame} (hparen : frames = .paren :: rest) :
    ∃ rest', frames' = .paren :: rest' ∧ rest.map Frame.bare = rest'.map Frame.bare := by
  subst hparen
  cases frames' with
  | nil => cases h
  | cons frame rest' =>
    obtain ⟨hframe, hrest⟩ := List.cons.inj h
    cases frame with
    | paren => exact ⟨rest', rfl, hrest⟩
    | negation | leftOf => cases hframe

/-- Two machines that wait for the same and take the same token wait for the same then. -/
theorem State.Alike.step {s s' u u' : State} {t : Token} (h : s.Alike s')
    (hu : s.step t = .shift u) (hu' : s'.step t = .shift u') : u.Alike u' := by
  obtain ⟨context, frames, value, symbols⟩ := s
  obtain ⟨context', frames', value', symbols'⟩ := s'
  obtain ⟨hframes, hvalue⟩ := h
  dsimp only at hframes hvalue
  cases value with
  | none =>
    obtain rfl : value' = none := by simpa using hvalue.symm
    obtain ⟨kind, text⟩ := t
    cases kind with
    | identifier =>
      cases hu
      cases hu'
      exact ⟨negate_alike hframes _ _, rfl⟩
    | opening =>
      cases hu
      cases hu'
      exact ⟨congrArg (Frame.paren :: ·) hframes, rfl⟩
    | negation =>
      simp only [State.step, State.onOperand] at hu hu'
      split at hu
      · cases hu
      split at hu'
      · cases hu'
      cases hu
      cases hu'
      exact ⟨congrArg (Frame.negation :: ·) hframes, rfl⟩
    | connective | applies | binds | equals | closing | other => cases hu
  | some value =>
    obtain ⟨value', rfl⟩ : ∃ v, value' = some v := Option.isSome_iff_exists.1 hvalue.symm
    by_cases hkind : ∃ op, t.kind = .connective op
    · obtain ⟨op, hop⟩ := hkind
      simp only [State.step, State.onOperator, hop] at hu hu'
      cases hu
      cases hu'
      exact ⟨congrArg (Frame.leftOf (.stray none) op :: ·) (reduce_alike op hframes _ _), rfl⟩
    · have hkind : ∀ op, t.kind ≠ .connective op := fun op hop => hkind ⟨op, hop⟩
      have hreduced := reduce_alike .bicond hframes value value'
      rcases State.onOperator_cases hkind hu with ⟨inner, rest, hreduce, _, rfl⟩ | ⟨hfresh, hopen⟩
      · obtain ⟨rest', hparen, hrest⟩ := head_bare hreduced (congrArg Prod.snd hreduce)
        rcases State.onOperator_cases hkind hu' with ⟨inner', rest₁, hreduce', _, rfl⟩ | ⟨_, hopen'⟩
        · have hsame : rest₁ = rest' := by
            rw [hreduce'] at hparen
            exact (List.cons.inj hparen).2
          exact ⟨negate_alike (hsame ▸ hrest) _ _, rfl⟩
        · exact absurd hparen (hopen' rest')
      · rcases State.onOperator_cases hkind hu' with ⟨inner', rest', hreduce', _, rfl⟩ | ⟨hfresh', _⟩
        · obtain ⟨rest, hparen, -⟩ := head_bare hreduced.symm (congrArg Prod.snd hreduce')
          exact absurd hparen (hopen rest)
        · exact hfresh.alike hfresh'

/-- **Equally deep from states that wait for the same.** -/
theorem Shifts.peak_alike {s s' u u' : State} {ts : List Token} (h : Shifts s ts u)
    (h' : Shifts s' ts u') (hs : s.Alike s') : s.peak ts = s'.peak ts := by
  induction h generalizing s' with
  | nil => rfl
  | cons hstep _ ih =>
    cases h' with
    | cons hstep' hrest' =>
      have hnext := hs.step hstep hstep'
      rw [State.peak, State.peak]
      simp only [hstep, hstep', hnext.depth, ih hrest' hnext]

/-! ## After a sign between formulas -/

/-- The signs between the formulas of a statement. -/
def separates : Token.Kind → Bool
  | .applies | .binds | .equals => true
  | _ => false

theorem State.step_separates {s s' : State} {t : Token} (ht : separates t.kind)
    (h : s.step t = .shift s') : s'.IsFresh := by
  obtain ⟨context, frames, value, symbols⟩ := s
  obtain ⟨kind, text⟩ := t
  cases value with
  | none =>
    cases kind with
    | applies | binds | equals => cases h
    | _ => cases ht
  | some value =>
    have hkind : ∀ op, kind ≠ .connective op := by
      rintro op rfl
      cases ht
    rcases onOperator_cases hkind h with ⟨_, _, _, rfl, _⟩ | ⟨hfresh, _⟩
    · cases ht
    · exact hfresh

/-- What a statement is up to a sign, and what comes of the sign. -/
theorem parse_after_sign {ts us : List Token} {t : Token} {n : Node} (ht : separates t.kind)
    (h : (Stream.ofTokens (ts ++ t :: us)).parse.outcome = .ok n) :
    ∃ m s, m.IsFresh ∧ Shifts m us s ∧
      (Stream.ofTokens (ts ++ t :: us)).parse.depth =
        max (Stream.ofTokens ts).parse.depth (m.peak us) := by
  obtain ⟨s, hrun, -⟩ := shifts_of_parse h
  obtain ⟨s₁, hbefore, hrest⟩ := hrun.split
  cases hrest with
  | @cons _ m _ _ _ hstep hafter =>
    have hfresh := State.step_separates ht hstep
    have hdepth : m.depth = 0 := by rw [State.depth, hfresh.1, List.foldl_nil]
    refine ⟨m, s, hfresh, hafter, ?_⟩
    rw [parse_depth, parse_depth, hbefore.peak_append, State.peak]
    simp only [hstep, hdepth, Nat.zero_max]

/-- **What follows a sign between formulas adds the same depth to whatever it follows.** -/
theorem depth_joined {ts ts' us : List Token} {t t' : Token} {n n' : Node}
    (ht : separates t.kind) (ht' : separates t'.kind)
    (h : (Stream.ofTokens (ts ++ t :: us)).parse.outcome = .ok n)
    (h' : (Stream.ofTokens (ts' ++ t' :: us)).parse.outcome = .ok n') :
    ∃ depth,
      (Stream.ofTokens (ts ++ t :: us)).parse.depth =
          max (Stream.ofTokens ts).parse.depth depth ∧
        (Stream.ofTokens (ts' ++ t' :: us)).parse.depth =
          max (Stream.ofTokens ts').parse.depth depth := by
  obtain ⟨m, s, hfresh, hrun, hdepth⟩ := parse_after_sign ht h
  obtain ⟨m', s', hfresh', hrun', hdepth'⟩ := parse_after_sign ht' h'
  refine ⟨m.peak us, hdepth, ?_⟩
  rw [hdepth', hrun.peak_alike hrun' (hfresh.alike hfresh')]

/-- A name after a sign adds nothing. -/
theorem depth_name {ts : List Token} {t : Token} {name : String} {n : Node}
    (ht : separates t.kind)
    (h : (Stream.ofTokens (ts ++ [t, ⟨.identifier, name⟩])).parse.outcome = .ok n) :
    (Stream.ofTokens (ts ++ [t, ⟨.identifier, name⟩])).parse.depth =
      (Stream.ofTokens ts).parse.depth := by
  obtain ⟨m, s, hfresh, -, hdepth⟩ := parse_after_sign ht h
  obtain ⟨context, frames, value, symbols⟩ := m
  obtain ⟨rfl, rfl⟩ := hfresh
  rw [hdepth]
  exact Nat.max_zero _

end Propositional.Parser
