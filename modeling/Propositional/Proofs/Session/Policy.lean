/-
Strict mode only takes answers away. The policy of matching is consulted by chains of
rewrites alone; every other line has the same answer under both (`answer_setStrict`). A
chain that strict matching carries to its end has the same steps under permissive matching,
so it has the same answer there; the other way round, this needs that no mismatch was
passed over and that no left-hand side has an atom twice (`strictness_only_refuses`).
-/
import Propositional.Proofs.Rewriting.Policy
import Propositional.Proofs.Session.History
import Propositional.Proofs.Session.Replies

namespace Propositional

open Nesting (Limit)

/-- The same answer in a session with the given policy. -/
def Turn.setStrict (turn : Turn) (strict : Bool) : Turn :=
  { turn with session := turn.session.setStrict strict }

namespace Session

variable {limit : Limit} {session : Session} {line : Line} {symbols : Symbols} {target rule : Node}

/-! ## What does not depend on the policy -/

theorem onFailure_setStrict (failure : Parser.Failure) (strict : Bool) :
    onFailure limit (session.setStrict strict) line symbols failure =
      (onFailure limit session line symbols failure).map (Turn.setStrict · strict) := by
  simp only [onFailure]
  split
  · rfl
  · cases failure.message symbols <;> rfl

theorem onBinding_setStrict (strict : Bool) :
    onBinding limit (session.setStrict strict) line symbols target rule =
      (onBinding limit session line symbols target rule).map (Turn.setStrict · strict) := by
  have hrules : (session.setStrict strict).rules = session.rules := rfl
  simp only [onBinding, hrules]
  cases target.text symbols with
  | error fault => rfl
  | ok name =>
    simp only [bind, Except.bind]
    split
    · rfl
    · cases rule.ruleText symbols with
      | error fault => rfl
      | ok text => cases session.rules.bind name rule <;> rfl

theorem onOutcome_setStrict (outcome : Rewrite) (events : List Event) (strict : Bool) :
    onOutcome limit (session.setStrict strict) line symbols outcome events =
      (onOutcome limit session line symbols outcome events).map (Turn.setStrict · strict) := by
  simp only [onOutcome]
  cases describeMismatches limit symbols outcome.mismatches with
  | error fault => rfl
  | ok described =>
    simp only [bind, Except.bind]
    split
    · rfl
    · cases outcome.unwrap with
      | error fault => rfl
      | ok result =>
        dsimp only
        split
        · rfl
        · cases result.text symbols <;> rfl

theorem onFormula_setStrict (formula : Node) (strict : Bool) :
    onFormula limit (session.setStrict strict) line symbols formula =
      (onFormula limit session line symbols formula).map (Turn.setStrict · strict) := by
  simp only [onFormula]
  split
  · rfl
  · cases TruthTable.ofFormula formula symbols with
    | error fault => rfl
    | ok table => cases formula.text symbols <;> rfl

theorem answer_setStrict (h : ∀ target rule, line.read.outcome ≠ .ok (.application target rule))
    (strict : Bool) :
    (session.setStrict strict).answer limit line =
      (session.answer limit line).map (Turn.setStrict · strict) := by
  simp only [answer]
  split
  · rfl
  · split
    · exact onFailure_setStrict ..
    · exact onBinding_setStrict ..
    next happlication => exact absurd happlication (h _ _)
    · exact onFormula_setStrict ..

/-! ## Chains -/

theorem onApplication_setStrict {strict : Bool}
    (h : Rewrite.ChainGoesAs symbols session.rules session.strict strict
      (Rewrite.links target rule).1 (Rewrite.links target rule).2)
    (hwithin : limit.bind
      (Rewrite.overrun · symbols session.rules session.strict target rule) = none) :
    onApplication limit (session.setStrict strict) line symbols target rule =
      (onApplication limit session line symbols target rule).map (Turn.setStrict · strict) := by
  have hwithin' : limit.bind
      (Rewrite.overrun · symbols session.rules strict target rule) = none := by
    cases limit with
    | none => rfl
    | some bound => exact h.overrun hwithin
  have hrules : (session.setStrict strict).rules = session.rules := rfl
  have hstrict : (session.setStrict strict).strict = strict := rfl
  simp only [onApplication, hrules, hstrict, hwithin, hwithin', h.chain_eq, h.steps_eq]
  split
  · exact onOutcome_setStrict ..
  · rfl
  · rfl

theorem Replies.rewritten_ok {turn : Turn} {text : String}
    (h : Replies limit session line symbols target rule turn)
    (hanswer : turn.answer = .rewritten text) :
    ∃ outcome result, limit.bind
        (Rewrite.overrun · symbols session.rules session.strict target rule) = none ∧
      Rewrite.carry symbols session.rules session.strict (Rewrite.links target rule).1
        (Rewrite.links target rule).2 = .ok outcome ∧ outcome.status = .ok result := by
  cases h with
  | tooDeep | undefined | failed => cases hanswer
  | @rewritten outcome _ result _ _ hwithin hchain _ hresult =>
    exact ⟨outcome, result, hwithin, Rewrite.chain_eq_carry target rule ▸ hchain,
      Rewrite.unwrap_ok.1 hresult⟩

theorem answer_goesAs {strict : Bool} {turn : Turn} {text : String}
    (hread : line.read.outcome = .ok (.application target rule))
    (hturn : session.answer limit line = .ok turn) (hanswer : turn.answer = .rewritten text)
    (h : ∀ outcome result, Rewrite.carry line.read.stream.symbols session.rules session.strict
        (Rewrite.links target rule).1 (Rewrite.links target rule).2 = .ok outcome →
      outcome.status = .ok result →
      Rewrite.ChainGoesAs line.read.stream.symbols session.rules session.strict strict
        (Rewrite.links target rule).1 (Rewrite.links target rule).2) :
    (session.setStrict strict).answer limit line = .ok (turn.setStrict strict) := by
  obtain ⟨outcome, result, hwithin, hcarry, hstatus⟩ :=
    (answer_replies hread hturn).rewritten_ok hanswer
  have hdepth := within_of_answer hturn (by simp [hanswer])
  rw [answer, hdepth, if_neg Bool.false_ne_true, hread] at hturn ⊢
  dsimp only at hturn ⊢
  rw [onApplication_setStrict (h outcome result hcarry hstatus) hwithin, hturn]
  rfl

theorem answer_permissive {turn : Turn} (hstrict : session.strict = true)
    (hturn : session.answer limit line = .ok turn)
    (hanswer : ∀ complaint message, turn.answer ≠ .diagnostic complaint message) :
    (session.setStrict false).answer limit line = .ok (turn.setStrict false) := by
  by_cases happlied : ∃ target rule, line.read.outcome = .ok (.application target rule)
  · obtain ⟨target, rule, hread⟩ := happlied
    have hrewritten : ∃ text, turn.answer = .rewritten text := by
      cases answer_replies hread hturn with
      | tooDeep | undefined | failed => exact absurd rfl (hanswer _ _)
      | rewritten => exact ⟨_, rfl⟩
    obtain ⟨text, htext⟩ := hrewritten
    refine answer_goesAs hread hturn htext fun outcome result hcarry hstatus => ?_
    rw [hstrict] at hcarry ⊢
    exact Rewrite.chainGoesAs_permissive hcarry hstatus
  · rw [answer_setStrict (fun target rule hread => happlied ⟨target, rule, hread⟩), hturn]
    rfl

/-- What permissive matching rewrites without mismatches, strict matching rewrites too, if
no left-hand side has an atom twice. -/
theorem answer_strict {turn : Turn} {text : String} (hstrict : session.strict = false)
    (hread : line.read.outcome = .ok (.application target rule))
    (hturn : session.answer limit line = .ok turn) (hanswer : turn.answer = .rewritten text)
    (hsteps : ∀ s ∈ Rewrite.steps line.read.stream.symbols session.rules false target rule,
      s.outcome.mismatches = [] ∧ s.lhs.atoms.Nodup) :
    (session.setStrict true).answer limit line = .ok (turn.setStrict true) := by
  refine answer_goesAs hread hturn hanswer fun outcome result hcarry hstatus => ?_
  rw [hstrict] at hcarry ⊢
  exact Rewrite.chainGoesAs_strict hcarry hstatus hsteps

/-- **Strict mode only takes successes away.** Matching an expression against a formula
binds the same under both policies, and the permissive mismatches are the strict ones
without the inconsistent bindings. So let a session come about from one whose rules are
equivalences of formulas, and answer a line in it under either policy. If the strict answer
is no diagnostic, the permissive one is the same, with the same notes, and leaves the same
session but for the policy. The other way round, if the line is read as a chain of rewrites
and permissive matching rewrites it without a mismatch in any step, and no left-hand side
has an atom twice, the strict answer is the same. -/
theorem strictness_only_refuses :
    (∀ {lhs : Node} (expr : Node), lhs.IsFormula →
      ∃ strict permissive, Match.find true lhs expr = .ok strict ∧
        Match.find false lhs expr = .ok permissive ∧
        permissive.bindings = strict.bindings ∧
        permissive.mismatches = strict.mismatches.filter fun m => m.reason ≠ .inconsistent) ∧
    ∀ {limit : Limit} {start session : Session}, start.rules.HoldsFormulas →
      ReachableFrom limit start session → ∀ text,
      ∃ strict permissive, (session.setStrict true).process text limit = .ok strict ∧
        (session.setStrict false).process text limit = .ok permissive ∧
        ((∀ complaint message, strict.answer ≠ .diagnostic complaint message) →
          permissive.answer = strict.answer ∧ permissive.notes = strict.notes ∧
            permissive.session = strict.session.setStrict false) ∧
        ∀ target rule shown,
          (Line.ofText text session.previous).read.outcome = .ok (.application target rule) →
          permissive.answer = .rewritten shown →
          (∀ s ∈ Rewrite.steps (Line.ofText text session.previous).read.stream.symbols
              session.rules false target rule,
            s.outcome.mismatches = [] ∧ s.lhs.atoms.Nodup) →
          strict.answer = permissive.answer ∧ strict.notes = permissive.notes ∧
            strict.session = permissive.session.setStrict true := by
  refine ⟨fun {lhs} expr hlhs => ?_, fun {limit start session} hstart hsession text => ?_⟩
  · obtain ⟨strict, hfind⟩ := Match.find_ok true hlhs expr
    exact ⟨strict, strict.lenient, hfind, Match.find_lenient hfind, rfl, rfl⟩
  · have hrules := hsession.holdsFormulas hstart
    have hall : ∀ policy, (session.setStrict policy).rules.HoldsFormulas := fun _ => hrules
    obtain ⟨strict, hstrict, -⟩ := process_total (hall true) limit text
    obtain ⟨permissive, hpermissive, -⟩ := process_total (hall false) limit text
    refine ⟨strict, permissive, hstrict, hpermissive, fun hanswer => ?_,
      fun target rule shown hread hanswer hsteps => ?_⟩
    · have hsame := answer_permissive rfl hstrict hanswer
      obtain rfl : strict.setStrict false = permissive :=
        Except.ok.inj (hsame.symm.trans hpermissive)
      exact ⟨rfl, rfl, rfl⟩
    · have hsame := answer_strict rfl hread hpermissive hanswer hsteps
      obtain rfl : permissive.setStrict true = strict :=
        Except.ok.inj (hsame.symm.trans hstrict)
      exact ⟨rfl, rfl, rfl⟩

/-- What `p & ~q => a & b = b & a` is read as: what the rule is applied to, and the rule. -/
def swappedOperands : Node × Node :=
  (.binary (.atom 0) .conj (.neg (.atom 1)),
    .equivalence (.binary (.atom 2) .conj (.atom 3)) (.binary (.atom 3) .conj (.atom 2)))

/-- Two operands that `a & a` tells apart when matching is strict, and a line that is
answered in the same way under both policies. -/
theorem strictness_only_refuses_swapped :
    (Node.binary (.atom 0) .conj (.atom 0)).IsFormula ∧
      (∃ permissive, Match.find false (.binary (.atom 0) .conj (.atom 0))
          (.binary (.atom 0) .conj (.atom 1)) = .ok permissive ∧ permissive.mismatches = []) ∧
      RuleStore.HoldsFormulas fresh.rules ∧ ReachableFrom Nesting.standard fresh fresh ∧
      (Line.ofText "p & ~q => a & b = b & a" fresh.previous).read.outcome =
        .ok (.application swappedOperands.1 swappedOperands.2) ∧
      (∀ s ∈ Rewrite.steps
          (Line.ofText "p & ~q => a & b = b & a" fresh.previous).read.stream.symbols
          fresh.rules false swappedOperands.1 swappedOperands.2,
        s.outcome.mismatches = [] ∧ s.lhs.atoms.Nodup) ∧
      ∃ strict permissive, (fresh.setStrict true).process "p & ~q => a & b = b & a" = .ok strict ∧
        (fresh.setStrict false).process "p & ~q => a & b = b & a" = .ok permissive ∧
        strict.answer = .rewritten "~q & p" ∧ permissive.answer = .rewritten "~q & p" ∧
        permissive.session = strict.session.setStrict false ∧
        strict.session = permissive.session.setStrict true := by
  have hformula : (Node.binary (.atom 0) .conj (.atom 0)).IsFormula :=
    .binary _ (.atom 0) (.atom 0)
  have hreach : ReachableFrom Nesting.standard fresh fresh := reachable_fresh _
  have hread : (Line.ofText "p & ~q => a & b = b & a" fresh.previous).read.outcome =
      .ok (.application swappedOperands.1 swappedOperands.2) := rfl
  have hsteps : ∀ s ∈ Rewrite.steps
      (Line.ofText "p & ~q => a & b = b & a" fresh.previous).read.stream.symbols
      fresh.rules false swappedOperands.1 swappedOperands.2,
      s.outcome.mismatches = [] ∧ s.lhs.atoms.Nodup := by
    decide +kernel
  obtain ⟨hmatch, hlines⟩ := strictness_only_refuses
  obtain ⟨strict, permissive, hstrict, hpermissive, hdown, hup⟩ :=
    hlines RuleStore.holdsFormulas_empty hreach "p & ~q => a & b = b & a"
  have hend : ((fresh.setStrict true).process "p & ~q => a & b = b & a").toOption.map (·.answer) =
      some (.rewritten "~q & p") := by
    decide +kernel
  obtain ⟨turn, hturn, hanswer⟩ := ok_of_map_toOption hend
  obtain rfl : turn = strict := Except.ok.inj (hturn.symm.trans hstrict)
  obtain ⟨hsame, -, hsession⟩ := hdown (by simp [hanswer])
  obtain ⟨-, -, hsession'⟩ := hup _ _ _ hread (hsame.trans hanswer) hsteps
  obtain ⟨match₁, match₂, hmatch₁, hmatch₂, -, hmismatches⟩ :=
    hmatch (.binary (.atom 0) .conj (.atom 1)) hformula
  refine ⟨hformula, ⟨match₂, hmatch₂, ?_⟩, RuleStore.holdsFormulas_empty, hreach, hread, hsteps,
    turn, permissive, hstrict, hpermissive, hanswer, hsame.trans hanswer, hsession, hsession'⟩
  rw [hmismatches]
  cases hmatch₁
  rfl

end Session

end Propositional
