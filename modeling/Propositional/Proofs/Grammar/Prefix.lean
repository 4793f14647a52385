/-
Errors come at the first token that cannot be right. Whatever the machine has taken can be
completed to a statement (`shifts_isBeginning`): what waits for an operand is given one,
parentheses are closed, and a rule gets the sides that it lacks. A token that the machine
refuses, it refuses whatever stands behind it (`Refuses.parse`). So the tokens before the
one at which reading fails are the beginning of a statement, and those up to it are not;
unless reading fails at the end of the input, and then all tokens are a beginning
(`error_at_first_offender`).
-/
import Propositional.Proofs.Grammar.Parse

namespace Propositional.Grammar

open Propositional.Parser

variable {index : String → Int} {symbols : Symbols}

/-! ## What has been taken can be completed -/

/-- All parentheses can be closed. By induction on the frames of the machine, whose state
need not have them, as long as a closing sign makes the same of it. -/
theorem Stack.closes {frames : List Frame} {stack : List Token} (hs : Stack index frames stack)
    (context : Context) (value : Node) {held : Node} {frames' : List Frame}
    (h : Parser.reduce .bicond held frames' =
      Parser.reduce .bicond (Parser.negate value frames).1 (Parser.negate value frames).2) :
    ∃ more s n, Shifts ⟨context, frames', some held, symbols⟩ more s ∧ HasRead s n ∧
      s.context = context := by
  induction hs generalizing held value frames' with
  | nil => exact ⟨[], _, value, .nil _, ⟨held, rfl, h⟩, rfl⟩
  | negation sign _ ih => exact ih (.neg value) h
  | paren sign _ ih =>
    obtain ⟨more, s, n, hrun, hread, hcontext⟩ := ih (.group value) rfl
    exact ⟨⟨.closing, ")"⟩ :: more, s, n, .cons (State.step_closing h) hrun, hread, hcontext⟩
  | @leftOf frames _ _ l op sign _ hfits _ ih =>
    have hop : op.rank ≤ Connective.bicond.rank := by cases op <;> decide
    have hwaits : Parser.negate value (.leftOf l op :: frames) = (value, .leftOf l op :: frames) :=
      rfl
    refine ih (.binary l op value) ?_
    rw [hfits.negate, h, hwaits, Parser.reduce, if_pos hop]

theorem Reads.closes {s : State} {tokens : List Token} (h : Reads index s tokens) :
    ∃ more s' n, Shifts s more s' ∧ HasRead s' n ∧ s'.context = s.context := by
  cases h with
  | @due context frames before stack symbols hb hs =>
    obtain ⟨more, s', n, hrun, hread, hcontext⟩ :=
      hs.closes context (.atom (symbols.intern "p").1) rfl
    exact ⟨⟨.identifier, "p"⟩ :: more, s', n, .cons rfl hrun, hread, hcontext⟩
  | @operand context frames value symbols before stack tokens hb hs hd hfits =>
    exact hs.closes context value (by rw [hfits.negate])

theorem HasRead.completes {s : State} {n : Node} (h : HasRead s n) (hs : s.context.isPlace) :
    ∃ more s' result, Shifts s more s' ∧ s'.finish = .ok result := by
  have hlast : ∀ context, (∀ value, ∃ result, Context.finish value context = .ok result) →
      s.step ⟨.equals, "="⟩ = .shift ⟨context, [], none, s.symbols⟩ →
      ∃ more s' result, Shifts s more s' ∧ s'.finish = .ok result := by
    intro context hfinish hequals
    obtain ⟨result, hresult⟩ := hfinish (.atom (s.symbols.intern "p").1)
    exact ⟨[⟨.equals, "="⟩, ⟨.identifier, "p"⟩], _, result, .cons hequals (.one rfl), hresult⟩
  cases hcontext : s.context with
  | operand | negated | formula =>
    rw [hcontext] at hs
    cases hs
  | statement | bindingRhs | ruleRhs =>
    have hfinish := h.finish
    rw [hcontext] at hfinish
    exact ⟨[], s, _, .nil s, hfinish⟩
  | bindingLhs target =>
    exact hlast _ (fun _ => ⟨_, rfl⟩) (h.bindingLhs_equals hcontext "=")
  | ruleLhs target =>
    exact hlast _ (fun _ => ⟨_, rfl⟩) (h.ruleLhs_equals hcontext "=")

/-- The tokens are read as a whole statement. -/
def IsRead (symbols : Symbols) (tokens : List Token) : Prop :=
  ∃ n, (Stream.ofTokens tokens symbols).parse.outcome = .ok n

/-- The tokens are what a statement begins with, or all of it. -/
def IsBeginning (symbols : Symbols) (tokens : List Token) : Prop :=
  ∃ more, IsRead symbols (tokens ++ more)

/-- **What the machine has taken is the beginning of a statement.** -/
theorem shifts_isBeginning {tokens : List Token} {s : State}
    (h : Shifts (.start .statement symbols) tokens s) : IsBeginning symbols tokens := by
  obtain ⟨more, s₁, n, hrun₁, hread, hcontext⟩ := (reads_start h).closes
  obtain ⟨more', s₂, result, hrun₂, hfinish⟩ :=
    hread.completes (hcontext ▸ h.isPlace rfl)
  have hall := (h.trans hrun₁).trans hrun₂
  rw [List.append_assoc] at hall
  exact ⟨more ++ more', result, (parse_of_shifts hall hfinish).1⟩

/-! ## What has been refused stays refused -/

theorem Refuses.parse {before : List Token} {s : State} {t : Token} {failure : Failure}
    (h : Refuses s t failure) (hrun : Shifts (.start .statement symbols) before s)
    (after : List Token) :
    (Stream.ofTokens (before ++ t :: after) symbols).parse.outcome = .error failure ∧
      (Stream.ofTokens (before ++ t :: after) symbols).parse.stream.symbols = s.symbols ∧
      (Stream.ofTokens (before ++ t :: after) symbols).parse.stream.rest =
        after.map .token := by
  obtain ⟨ho, hstream⟩ := hrun.run_append rfl [] ((t :: after).map .token)
  rw [← List.map_append, ← read_ofTokens] at ho hstream
  have hsettled := State.settled?_eq_none (hrun.isPlace rfl)
  cases h with
  | fail hstep =>
    simp only [List.map_cons, run, hsettled, hstep] at ho hstream
    simp only [Stream.parse, ho, hstream, and_self]
  | trailing hstep =>
    simp only [List.map_cons, run, hsettled, hstep] at ho hstream
    simp only [Stream.parse, ho, hstream, Stream.peek, and_self]

theorem parse_of_stuck {tokens : List Token} {s : State} {failure : Failure}
    (h : Shifts (.start .statement symbols) tokens s) (hf : s.finish = .error failure) :
    (Stream.ofTokens tokens symbols).parse.outcome = .error failure ∧
      (Stream.ofTokens tokens symbols).parse.stream.rest = [] := by
  obtain ⟨ho, hstream⟩ := run_of_shifts h rfl []
  rw [← read_ofTokens] at ho hstream
  simp only [Stream.parse, ho, hf, hstream, and_self]

theorem failed_at {tokens : List Token} {failure : Failure}
    (h : (Stream.ofTokens tokens symbols).parse.outcome = .error failure) :
    (∃ before t after s, tokens = before ++ t :: after ∧
        Shifts (.start .statement symbols) before s ∧ Refuses s t failure) ∨
      ∃ s, Shifts (.start .statement symbols) tokens s ∧ s.finish = .error failure := by
  cases parse_ofTokens tokens symbols with
  | input s hrun ho => exact .inr ⟨s, hrun, ho.symm.trans h⟩
  | fail s before after t failure' htokens hrun hstep ho =>
    cases ho.symm.trans h
    exact .inl ⟨before, t, after, s, htokens, hrun, .fail hstep⟩
  | trailing s before after t result htokens hrun hstep ho =>
    cases ho.symm.trans h
    exact .inl ⟨before, t, after, s, htokens, hrun, .trailing hstep⟩

/-- The tokens are refused with a message, after the names of a table have been interned. -/
def IsRefused (symbols : Symbols) (tokens : List Token) (message : String) (table : Symbols) :
    Prop :=
  ∃ failure, (Stream.ofTokens tokens symbols).parse.outcome = .error failure ∧
    (Stream.ofTokens tokens symbols).parse.stream.symbols = table ∧
    failure.message table = .ok message

theorem IsRefused.not_isRead {tokens : List Token} {message : String} {table : Symbols}
    (h : IsRefused symbols tokens message table) : ¬ IsRead symbols tokens := by
  rintro ⟨n, hn⟩
  obtain ⟨failure, hfailure, -⟩ := h
  rw [hn] at hfailure
  cases hfailure

/-- **Errors are raised at the first offending token.** Let reading tokens as a statement
fail. The tokens that have been pulled are the first ones, and those that have not are left
in the stream. Either the last one pulled offends: those before it are the beginning of a
statement, no statement begins with it as well, and whatever stands behind it, reading
fails with the same message and the same names interned. Or all tokens have been pulled and
the input has ended too early: they are the beginning of a statement that has more tokens. -/
theorem error_at_first_offender {tokens : List Token} {failure : Failure}
    (h : (Stream.ofTokens tokens symbols).parse.outcome = .error failure) :
    ∃ pulled rest message table, tokens = pulled ++ rest ∧
      (Stream.ofTokens tokens symbols).parse.stream.rest = rest.map .token ∧
      IsRefused symbols tokens message table ∧
      ((∃ before t, pulled = before ++ [t] ∧ IsBeginning symbols before ∧
          ¬ IsBeginning symbols pulled ∧
          ∀ more, IsRefused symbols (pulled ++ more) message table) ∨
        rest = [] ∧ ∃ more, more ≠ [] ∧ IsRead symbols (tokens ++ more)) := by
  obtain ⟨message, hmessage⟩ := parse_error_message h
  generalize htable : (Stream.ofTokens tokens symbols).parse.stream.symbols = table at hmessage
  have hrefused : IsRefused symbols tokens message table := ⟨failure, h, htable, hmessage⟩
  rcases failed_at h with ⟨before, t, after, s, rfl, hrun, hrefuses⟩ | ⟨s, hrun, hfinish⟩
  · obtain ⟨-, hsymbols, hrest⟩ := hrefuses.parse hrun after
    have hall : ∀ more, IsRefused symbols (before ++ [t] ++ more) message table := by
      intro more
      obtain ⟨ho, hsymbols', -⟩ := hrefuses.parse hrun more
      rw [List.append_assoc, List.singleton_append]
      exact ⟨failure, ho, hsymbols'.trans (hsymbols.symm.trans htable), hmessage⟩
    refine ⟨before ++ [t], after, message, table, by simp, hrest, hrefused,
      .inl ⟨before, t, rfl, shifts_isBeginning hrun, ?_, hall⟩⟩
    rintro ⟨more, hread⟩
    exact (hall more).not_isRead hread
  · obtain ⟨-, hrest⟩ := parse_of_stuck hrun hfinish
    obtain ⟨more, hread⟩ := shifts_isBeginning hrun
    refine ⟨tokens, [], message, table, (List.append_nil tokens).symm, hrest, hrefused,
      .inr ⟨rfl, more, ?_, hread⟩⟩
    rintro rfl
    rw [List.append_nil] at hread
    exact hrefused.not_isRead hread

/-- The tokens of `(p q)`. -/
def unclosed : List Token :=
  [⟨.opening, "("⟩, ⟨.identifier, "p"⟩, ⟨.identifier, "q"⟩, ⟨.closing, ")"⟩]

/-- The parenthesis that was opened before `p` cannot be closed behind `q`. -/
theorem error_at_first_offender_unclosed :
    (Stream.ofTokens unclosed).parse.outcome = .error .unclosedParen ∧
      IsBeginning .empty (unclosed.take 2) ∧
      ∀ more, IsRefused .empty (unclosed.take 3 ++ more) "Missing closing parenthesis"
        (Symbols.empty.afterTokens (unclosed.take 2)) := by
  have houtcome : (Stream.ofTokens unclosed).parse.outcome = .error .unclosedParen := rfl
  obtain ⟨pulled, rest, message, table, htokens, hrest, ⟨failure, hfailure, rfl, hmessage⟩,
    hcases⟩ := error_at_first_offender houtcome
  cases houtcome.symm.trans hfailure
  cases hmessage
  obtain ⟨t, rfl, ht⟩ := List.map_eq_singleton_iff.1
    (hrest.symm : rest.map Lexeme.token = [.token ⟨.closing, ")"⟩])
  cases ht
  rcases hcases with ⟨before, t, rfl, hbefore, -, hall⟩ | ⟨hnil, -⟩
  · have hsplit : before ++ [t] ++ [⟨.closing, ")"⟩] =
        unclosed.take 2 ++ [⟨.identifier, "q"⟩] ++ [⟨.closing, ")"⟩] := htokens.symm
    obtain ⟨rfl, ht⟩ := List.append_inj' (List.append_cancel_right hsplit) rfl
    cases ht
    exact ⟨houtcome, hbefore, hall⟩
  · cases hnil

end Propositional.Grammar
