/-
How a chain of rewrites is answered. There are four ways (`Replies`). Unless the line is
refused as nested too deeply, the answer is the one that the outcome of the chain calls
for (`Replies.within`), and it is that one whenever the chain stays within the limit
(`onApplication_within`).
-/
import Propositional.Session.Interpreter

namespace Propositional

namespace Rewrite

theorem unwrap_ok {outcome : Rewrite} {result : Node} :
    outcome.unwrap = .ok result ↔ outcome.status = .ok result := by
  obtain ⟨status, mismatches⟩ := outcome
  cases status <;> simp [unwrap]

/-- The two faults that the outcome of a chain may stand for. -/
theorem unwrap_error {outcome : Rewrite} {fault : Fault} (h : outcome.unwrap = .error fault) :
    fault = .mismatch ∨ fault = .unboundAtom := by
  rw [unwrap] at h
  split at h <;> cases h
  · exact .inl rfl
  · exact .inr rfl

end Rewrite

namespace Session

open Nesting (Limit)

variable {limit : Limit} {session : Session} {line : Line} {symbols : Symbols} {target rule : Node}

theorem describeMismatches_all {mismatches : List Mismatch} {notes : List String}
    (h : describeMismatches limit symbols mismatches = .ok (notes, false)) :
    mismatches.mapM (Mismatch.describe symbols) = .ok notes := by
  induction mismatches generalizing notes with
  | nil =>
    cases h
    rfl
  | cons m rest ih =>
    rw [describeMismatches] at h
    split at h
    · cases h
    · obtain ⟨note, hnote, h⟩ := bind_eq_ok h
      obtain ⟨⟨later, overrun⟩, hlater, h⟩ := bind_eq_ok h
      cases h
      rw [List.mapM_cons, hnote, ih hlater]
      rfl

theorem describeMismatches_overrun {mismatches : List Mismatch} {notes : List String}
    {overrun : Bool} (h : describeMismatches limit symbols mismatches = .ok (notes, overrun)) :
    overrun = mismatches.any fun m => limit.refusesText m.found := by
  induction mismatches generalizing notes with
  | nil =>
    cases h
    rfl
  | cons m rest ih =>
    rw [describeMismatches] at h
    rw [List.any_cons]
    split at h
    · next hrefused =>
      cases h
      rw [hrefused, Bool.true_or]
    · next hfits =>
      obtain ⟨note, -, h⟩ := bind_eq_ok h
      obtain ⟨⟨later, overrun'⟩, hlater, h⟩ := bind_eq_ok h
      cases h
      rw [Bool.eq_false_iff.2 hfits, Bool.false_or, ih hlater]

/-- The ways in which a session may answer a chain of rewrites. -/
inductive Replies (limit : Limit) (session : Session) (line : Line) (symbols : Symbols)
    (target rule : Node) : Turn → Prop
  | tooDeep (notes : List String) (events : List Event) :
      Replies limit session line symbols target rule (tooDeep session line notes events)
  | undefined {name : String} (events : List Event) :
      Rewrite.chain symbols session.rules session.strict target rule =
        .error (.undefinedRule name) →
      Replies limit session line symbols target rule
        (decline session line .rewriting (Fault.undefinedRule name).message [] events)
  | failed {outcome : Rewrite} {notes : List String} {fault : Fault} (events : List Event) :
      limit.bind (Rewrite.overrun · symbols session.rules session.strict target rule) = none →
      Rewrite.chain symbols session.rules session.strict target rule = .ok outcome →
      describeMismatches limit symbols outcome.mismatches = .ok (notes, false) →
      outcome.unwrap = .error fault →
      Replies limit session line symbols target rule
        (decline session line .rewriting fault.message notes events)
  | rewritten {outcome : Rewrite} {notes : List String} {result : Node} {text : String}
      (events : List Event) :
      limit.bind (Rewrite.overrun · symbols session.rules session.strict target rule) = none →
      Rewrite.chain symbols session.rules session.strict target rule = .ok outcome →
      describeMismatches limit symbols outcome.mismatches = .ok (notes, false) →
      outcome.unwrap = .ok result → limit.refusesText result = false →
      result.text symbols = .ok text →
      Replies limit session line symbols target rule
        ⟨.rewritten text, line.notes ++ notes, { session with previous := text },
          line.events ++ events⟩

theorem onApplication_replies {turn : Turn}
    (h : onApplication limit session line symbols target rule = .ok turn) :
    Replies limit session line symbols target rule turn := by
  rw [onApplication] at h
  split at h
  · cases h
    exact .tooDeep ..
  · next hwithin =>
    split at h
    · next outcome hchain =>
      obtain ⟨⟨notes, overrun⟩, hnotes, h⟩ := bind_eq_ok h
      dsimp only at h
      split at h
      · cases h
        exact .tooDeep ..
      · next hall =>
        obtain rfl : overrun = false := by simpa using hall
        split at h
        · next fault hfault =>
          cases h
          exact .failed _ hwithin hchain hnotes hfault
        · next result hresult =>
          split at h
          · cases h
            exact .tooDeep ..
          · next hfits =>
            obtain ⟨text, htext, h⟩ := bind_eq_ok h
            cases h
            have hfits : limit.refusesText result = false := by simpa using hfits
            exact .rewritten _ hwithin hchain hnotes hresult hfits htext
    · next hchain =>
      cases h
      exact .undefined _ hchain
    · cases h

/-- The answer of a session to a line that is read as a chain. -/
theorem answer_replies {turn : Turn}
    (hread : line.read.outcome = .ok (.application target rule))
    (h : session.answer limit line = .ok turn) :
    Replies limit session line line.read.stream.symbols target rule turn := by
  rw [answer] at h
  split at h
  · cases h
    exact .tooDeep ..
  · rw [hread] at h
    exact onApplication_replies h

theorem process_replies {text : String} {turn : Turn}
    (hread : (Line.ofText text session.previous).read.outcome = .ok (.application target rule))
    (h : session.process text limit = .ok turn) :
    Replies limit session (.ofText text session.previous)
      (Line.ofText text session.previous).read.stream.symbols target rule turn :=
  answer_replies hread h

/-! ## Answers to outcomes -/

theorem within_of_answer {turn : Turn} (h : session.answer limit line = .ok turn)
    (hanswer : turn.answer ≠ .diagnostic .reading tooDeepMessage) :
    limit.exceededBy line.read.depth = false := by
  rw [Bool.eq_false_iff]
  intro hdeep
  rw [answer, if_pos hdeep] at h
  cases h
  exact hanswer rfl

/-- The answer that the outcome of a chain calls for. -/
def answerTo (symbols : Symbols) (outcome : Rewrite) : Except Fault Answer :=
  match outcome.unwrap with
  | .error fault => .ok (.diagnostic .rewriting fault.message)
  | .ok result => do
    let text ← result.text symbols
    return .rewritten text

theorem answerTo_ne_reading {outcome : Rewrite} {answer : Answer}
    (h : answerTo symbols outcome = .ok answer) (message : String) :
    answer ≠ .diagnostic .reading message := by
  rintro rfl
  rw [answerTo] at h
  split at h
  · cases h
  · obtain ⟨text, -, h⟩ := bind_eq_ok h
    cases h

/-- A chain with this outcome stays within the limit, and so does what is shown of it. -/
structure Within (limit : Limit) (symbols : Symbols) (rules : RuleStore) (strict : Bool)
    (target rule : Node) (outcome : Rewrite) : Prop where
  chain : Rewrite.chain symbols rules strict target rule = .ok outcome
  overrun : limit.bind (Rewrite.overrun · symbols rules strict target rule) = none
  found : ∀ m ∈ outcome.mismatches, limit.refusesText m.found = false
  result : ∀ result, outcome.status = .ok result → limit.refusesText result = false

theorem Replies.within {turn : Turn} (h : Replies limit session line symbols target rule turn)
    (hanswer : turn.answer ≠ .diagnostic .reading tooDeepMessage) {outcome : Rewrite}
    (hchain : Rewrite.chain symbols session.rules session.strict target rule = .ok outcome) :
    Within limit symbols session.rules session.strict target rule outcome ∧
      Session.answerTo symbols outcome = .ok turn.answer := by
  have hfound : ∀ {notes}, describeMismatches limit symbols outcome.mismatches = .ok (notes, false) →
      ∀ m ∈ outcome.mismatches, limit.refusesText m.found = false := fun hnotes m hm =>
    Bool.eq_false_iff.2 (List.any_eq_false.1 (describeMismatches_overrun hnotes).symm m hm)
  cases h with
  | tooDeep => exact absurd rfl hanswer
  | undefined _ hundefined =>
    rw [hchain] at hundefined
    cases hundefined
  | failed _ hwithin hchain' hnotes hfault =>
    obtain rfl := Except.ok.inj (hchain.symm.trans hchain')
    refine ⟨⟨hchain, hwithin, hfound hnotes, fun result hresult => ?_⟩, ?_⟩
    · rw [Rewrite.unwrap_ok.2 hresult] at hfault
      cases hfault
    · rw [Session.answerTo, hfault]
      rfl
  | rewritten _ hwithin hchain' hnotes hresult hfits htext =>
    obtain rfl := Except.ok.inj (hchain.symm.trans hchain')
    refine ⟨⟨hchain, hwithin, hfound hnotes, fun result hresult' => ?_⟩, ?_⟩
    · rw [Rewrite.unwrap_ok.2 hresult'] at hresult
      cases hresult
      exact hfits
    · rw [Session.answerTo, hresult]
      simp only [htext]
      rfl

theorem onApplication_within {outcome : Rewrite} {turn : Turn}
    (hwithin : Within limit symbols session.rules session.strict target rule outcome)
    (h : onApplication limit session line symbols target rule = .ok turn) :
    answerTo symbols outcome = .ok turn.answer := by
  rw [onApplication, hwithin.overrun] at h
  dsimp only at h
  rw [hwithin.chain] at h
  obtain ⟨⟨notes, overrun⟩, hnotes, h⟩ := bind_eq_ok h
  have hall : overrun = false := by
    rw [describeMismatches_overrun hnotes, List.any_eq_false]
    exact fun m hm => Bool.eq_false_iff.1 (hwithin.found m hm)
  subst hall
  dsimp only at h
  rw [if_neg Bool.false_ne_true] at h
  rw [answerTo]
  cases hresult : outcome.unwrap with
  | error fault =>
    rw [hresult] at h
    cases h
    rfl
  | ok result =>
    rw [hresult] at h
    dsimp only at h
    rw [hwithin.result result (Rewrite.unwrap_ok.1 hresult), if_neg Bool.false_ne_true] at h
    obtain ⟨text, htext, h⟩ := bind_eq_ok h
    cases h
    simp only [htext]
    rfl

theorem Replies.session_eq {turn : Turn} {text : String}
    (h : Replies limit session line symbols target rule turn)
    (hanswer : turn.answer = .rewritten text) : turn.session = { session with previous := text } := by
  cases h with
  | rewritten =>
    cases hanswer
    rfl
  | tooDeep | undefined | failed => cases hanswer

end Session

end Propositional
