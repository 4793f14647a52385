/-
Formulas given as arguments and lines given to the interactive loop. The two are separate
recursions over lines; both go along the same `Trail`, the responses to the lines up to the first
that quits, and differ in what they print around the responses (`Trail.evaluate_eq`,
`Trail.converse_eq`). There is a trail from every session whose rules are equivalences of
formulas (`exists_trail`), for such a session responds to every line and stays such a session.
-/
import Propositional.CommandLine
import Propositional.Proofs.Session.Answers

namespace Propositional

open Nesting (Limit)

namespace Repl

/-- Whether a line ends the loop. -/
def quits (line : String) : Bool := Text.trim line = "quit"

/-- Whether a line is answered without the session being asked. -/
def isCommand (line : String) : Bool :=
  ["quit", "", "help", "toggle"].contains (Text.trim line)

/-- What is printed for a response. -/
def Response.text (r : Response) : String := (r.shown.map printed).getD ""

variable {limit : Limit} {s s' : Session} {line : String} {lines : List String}
  {r : Response} {trail : List Response}

/-! ## One line -/

/-- A command is answered in every session, and changes the display mode at most. -/
theorem respond_command (s : Session) (limit : Limit) (h : isCommand line = true) :
    ∃ r, respond s line limit = .ok r ∧ r.session.previous = s.previous ∧
      r.session.rules = s.rules ∧ r.session.strict = s.strict := by
  have hline : Text.trim line = "quit" ∨ Text.trim line = "" ∨ Text.trim line = "help" ∨
      Text.trim line = "toggle" := by simpa [isCommand] using h
  rcases hline with hline | hline | hline | hline <;> simp only [respond, hline] <;>
    exact ⟨_, rfl, rfl, rfl, rfl⟩

/-- A session whose rules are equivalences of formulas responds to every line, with some text
unless the line quits, and stays such a session. -/
theorem respond_ok (hrules : s.rules.HoldsFormulas) (limit : Limit) (line : String) :
    ∃ r, respond s line limit = .ok r ∧ r.session.rules.HoldsFormulas ∧
      (r.shown = none ↔ quits line = true) := by
  rw [respond, quits]
  split
  · next hquit => exact ⟨_, rfl, hrules, by simp [hquit]⟩
  next hquit =>
    split
    · exact ⟨_, rfl, hrules, by simp [hquit]⟩
    split
    · exact ⟨_, rfl, hrules, by simp [hquit]⟩
    split
    · exact ⟨_, rfl, hrules, by simp [hquit]⟩
    obtain ⟨turn, hprocess, hanswers⟩ := Session.process_total hrules limit (Text.trim line)
    obtain ⟨shown, hshown⟩ := hanswers.render_ok turn.session
    have hrender : turn.render = .ok shown := hshown
    rw [hprocess]
    simp only [bind, Except.bind, hrender]
    exact ⟨_, rfl, hanswers.holdsFormulas hrules, by simp [hquit]⟩

/-! ## Lines one after the other -/

/-- The responses to lines one after the other, up to the first that quits. -/
inductive Trail (limit : Limit) : Session → List String → List Response → Prop
  | nil (s : Session) : Trail limit s [] []
  | quit {s : Session} {line : String} {r : Response} (rest : List String) :
      respond s line limit = .ok r → quits line = true → r.shown = none →
      Trail limit s (line :: rest) [r]
  | next {s : Session} {line shown : String} {rest : List String} {r : Response}
      {trail : List Response} :
      respond s line limit = .ok r → quits line = false → r.shown = some shown →
      Trail limit r.session rest trail → Trail limit s (line :: rest) (r :: trail)

/-- The session that responses lead to. -/
def final (s : Session) : List Response → Session
  | [] => s
  | r :: trail => final r.session trail

/-- What is printed where the input ends: an empty line, unless a line has quit. -/
def ending (lines : List String) : List String := if lines.any quits then [] else ["\n"]

theorem ending_quit (h : quits line = true) (rest : List String) : ending (line :: rest) = [] := by
  simp [ending, h]

theorem ending_next (h : quits line = false) (rest : List String) :
    ending (line :: rest) = ending rest := by
  simp [ending, h]

theorem exists_trail (hrules : s.rules.HoldsFormulas) (limit : Limit) (lines : List String) :
    ∃ trail, Trail limit s lines trail := by
  induction lines generalizing s with
  | nil => exact ⟨[], .nil s⟩
  | cons line rest ih =>
    obtain ⟨r, hr, hkept, hquit⟩ := respond_ok hrules limit line
    cases hshown : r.shown with
    | none => exact ⟨[r], .quit rest hr (hquit.1 hshown) hshown⟩
    | some shown =>
      obtain ⟨trail, htrail⟩ := ih hkept
      have hgoes : quits line = false := by
        rw [← Bool.not_eq_true, ← hquit, hshown]
        exact nofun
      exact ⟨r :: trail, .next hr hgoes hshown htrail⟩

/-- Lines that are evaluated print what the responses show, and nothing else. -/
theorem Trail.evaluate_eq (h : Trail limit s lines trail) :
    evaluate s lines limit =
      .ok ⟨String.join (trail.map Response.text), trail.length, final s trail,
        trail.flatMap (·.events)⟩ := by
  induction h with
  | nil => rfl
  | quit rest hr _ hshown =>
    rw [evaluate, hr]
    simp only [bind, Except.bind, hshown]
    simp [Response.text, hshown, final, pure, Except.pure]
  | next hr _ hshown _ ih =>
    rw [evaluate, hr]
    simp only [bind, Except.bind, hshown, ih]
    simp [Response.text, hshown, final, pure, Except.pure]

/-- The loop prints the same, each time after a prompt, and behind it what the end of the input
makes it print. -/
theorem Trail.converse_eq (h : Trail limit s lines trail) (prompt : String) :
    converse prompt s lines limit =
      .ok ⟨String.join ((trail.map Response.text ++ ending lines).map (prompt ++ ·)),
        (trail.map Response.text ++ ending lines).length, final s trail,
        trail.flatMap (·.events)⟩ := by
  induction h with
  | nil => simp [converse, ending, final]
  | quit rest hr hquits hshown =>
    rw [converse, hr, ending_quit hquits]
    simp only [bind, Except.bind, hshown]
    simp [Response.text, hshown, final, pure, Except.pure]
  | next hr hgoes hshown _ ih =>
    rw [converse, hr, ending_next hgoes]
    simp only [bind, Except.bind, hshown, ih]
    simp [Response.text, hshown, final, pure, Except.pure, String.append_assoc]

theorem Trail.run_eq (h : Trail limit s lines trail) (prompt : String) :
    run prompt s lines limit =
      .ok ⟨banner ++ "\n" ++ usage ++ "\n" ++
          String.join ((trail.map Response.text ++ ending lines).map (prompt ++ ·)),
        (trail.map Response.text ++ ending lines).length, final s trail,
        trail.flatMap (·.events)⟩ := by
  rw [run, h.converse_eq prompt]
  rfl

theorem Trail.take (h : Trail limit s lines trail) (k : Nat) :
    Trail limit s (lines.take k) (trail.take k) := by
  induction h generalizing k with
  | nil => simpa using .nil _
  | quit rest hr hquits hshown =>
    cases k with
    | zero => exact .nil _
    | succ k => simpa using .quit (rest.take k) hr hquits hshown
  | next hr hgoes hshown _ ih =>
    cases k with
    | zero => exact .nil _
    | succ k => exact .next hr hgoes hshown (ih k)

theorem Trail.cut {before after : List String} (h : Trail limit s (before ++ line :: after) trail)
    (hline : quits line = true) (others : List String) :
    Trail limit s (before ++ line :: others) trail := by
  induction before generalizing s trail with
  | nil =>
    cases h with
    | quit _ hr hquits hshown => exact .quit others hr hquits hshown
    | next _ hgoes =>
      rw [hline] at hgoes
      cases hgoes
  | cons first before ih =>
    cases h with
    | quit _ hr hquits hshown => exact .quit _ hr hquits hshown
    | next hr hgoes hshown hrest => exact .next hr hgoes hshown (ih hrest)

theorem ending_cut {before after : List String} (h : quits line = true) :
    ending (before ++ line :: after) = [] := by
  simp [ending, h]

end Repl

namespace CommandLine

open Repl

/-! ## Lines as arguments -/

/-- The arguments give these lines to be evaluated: they are the lines, and each of them is
taken for a formula, or they are the mark `--` and then any lines. -/
inductive Positional (lines : List String) : List String → Prop
  | plain : (∀ line ∈ lines, classify line = .formula line) → Positional lines lines
  | marked : Positional lines ("--" :: lines)

variable {lines arguments : List String}

theorem splitAtMark_of_formulas (h : ∀ line ∈ lines, classify line = .formula line) :
    splitAtMark lines = (lines, none) := by
  induction lines with
  | nil => rfl
  | cons line rest ih =>
    have hmark : line ≠ "--" := by
      rintro rfl
      exact absurd (h "--" List.mem_cons_self) (by decide)
    rw [splitAtMark, ih fun line' hline' => h line' (List.mem_cons_of_mem _ hline')]
    exact hmark

theorem take_formulas (p : Progress) (formulas : List String) :
    take none p (formulas.map .formula) =
      take none { p with current := p.current ++ formulas } [] := by
  induction formulas generalizing p with
  | nil => simp
  | cons text rest ih =>
    calc take none p (.formula text :: rest.map .formula)
        = take none { p with current := p.current ++ [text] } (rest.map .formula) := by rw [take]
      _ = take none { p with current := p.current ++ text :: rest } [] := by
        rw [ih, List.append_assoc, List.singleton_append]

theorem Positional.request_eq (h : Positional lines arguments) (hne : lines ≠ []) :
    request arguments = .evaluate ⟨false, none, lines⟩ := by
  cases h with
  | plain hformulas =>
    have hclassified : lines.map classify = lines.map .formula := List.map_congr_left hformulas
    rw [request, splitAtMark_of_formulas hformulas]
    simp only [hclassified]
    rw [if_neg (by simp), take_formulas]
    simp [take, Progress.settle, hne]
  | marked => rfl

theorem initialSession_plain (env : Environment) (lines : List String) :
    initialSession ⟨false, none, lines⟩ env = Session.ofEnvironment env := by
  simp [initialSession]

theorem ofEnvironment_holdsFormulas (env : Environment) :
    (Session.ofEnvironment env).rules.HoldsFormulas :=
  RuleStore.holdsFormulas_empty

theorem transcript_eq (hne : lines ≠ []) (env : Environment) (input : String) :
    transcript ⟨false, none, lines⟩ env input =
      evaluate (Session.ofEnvironment env) lines (limit env) := by
  rw [transcript, initialSession_plain]
  simp [hne]

theorem execute_eq {env : Environment} {trail : List Response}
    (htrail : Trail (limit env) (Session.ofEnvironment env) lines trail) (hne : lines ≠ [])
    (hargs : Positional lines arguments) (input : String) :
    execute arguments env input =
      .ok (.evaluated (String.join (trail.map Response.text))
        (logText env (trail.flatMap (·.events)))) := by
  rw [execute, hargs.request_eq hne]
  dsimp only
  rw [transcript_eq hne, htrail.evaluate_eq]
  rfl

theorem join_pieces (trail : List Response) (lines : List String) :
    String.join (trail.map Response.text ++ ending lines) =
      String.join (trail.map Response.text) ++ if lines.any quits then "" else "\n" := by
  rw [String.join_append, ending]
  split <;> rfl

/-- **Arguments and the loop agree.** Let lines be given as arguments, in some environment, and
to the loop over the session of this environment. Both go along the same trail of responses:
after any number of lines both have come to the session that the responses so far lead to. As
arguments, the lines print what the responses show. The loop prints its greeting, and then the
same in as many pieces as there are prompts, one behind each, with an empty line at the end if
and only if no line quits. Of what follows a line that quits nothing is seen in either. On the
way, blank lines and commands leave the previous text, the rules and the strictness of a session
as they are, whatever it holds. -/
theorem arguments_agree_with_loop (env : Environment) (input : String)
    {lines arguments : List String} (hne : lines ≠ []) (hargs : Positional lines arguments) :
    let start := Session.ofEnvironment env
    ∃ trail done, Trail (limit env) start lines trail ∧
      transcript ⟨false, none, lines⟩ env input = evaluate start lines (limit env) ∧
      evaluate start lines (limit env) = .ok done ∧
      execute arguments env input = .ok (.evaluated done.output (logText env done.events)) ∧
      (∃ pieces,
        String.join pieces = done.output ++ (if lines.any quits then "" else "\n") ∧
        ∀ prompt, run prompt start lines (limit env) =
          .ok ⟨banner ++ "\n" ++ usage ++ "\n" ++ String.join (pieces.map (prompt ++ ·)),
            pieces.length, done.session, done.events⟩) ∧
      (∀ k, ∃ evaluated, evaluate start (lines.take k) (limit env) = .ok evaluated ∧
        evaluated.session = final start (trail.take k) ∧
        ∀ prompt, ∃ spoken, run prompt start (lines.take k) (limit env) = .ok spoken ∧
          spoken.session = evaluated.session) ∧
      (∀ before line after, lines = before ++ line :: after → quits line = true →
        (∀ shorter, Positional (before ++ [line]) shorter →
          execute shorter env input = execute arguments env input) ∧
        ∀ prompt, run prompt start (before ++ [line]) (limit env) =
          run prompt start lines (limit env)) ∧
      ∀ (s : Session) (line : String), isCommand line = true →
        ∃ r, respond s line (limit env) = .ok r ∧ r.session.previous = s.previous ∧
          r.session.rules = s.rules ∧ r.session.strict = s.strict := by
  intro start
  obtain ⟨trail, htrail⟩ :=
    exists_trail (ofEnvironment_holdsFormulas env) (limit env) lines
  refine ⟨trail, _, htrail, transcript_eq hne env input, htrail.evaluate_eq,
    execute_eq htrail hne hargs input, ⟨_, join_pieces trail lines, htrail.run_eq⟩, fun k => ?_, ?_,
    fun s line => respond_command s (limit env)⟩
  · have hfirst := htrail.take k
    exact ⟨_, hfirst.evaluate_eq, rfl, fun prompt => ⟨_, hfirst.run_eq prompt, rfl⟩⟩
  · rintro before line after rfl hquits
    have hcut := htrail.cut hquits []
    refine ⟨fun shorter hshorter => ?_, fun prompt => ?_⟩
    · rw [execute_eq hcut (by simp) hshorter, execute_eq htrail hne hargs]
    · rw [hcut.run_eq, htrail.run_eq, ending_cut hquits, ending_cut hquits]

/-- A rule is bound, and applied once the display has been toggled. The line behind `quit` is
not answered, and the loop prints no empty line. -/
theorem arguments_agree_with_loop_quitting :
    let lines := ["r := a = ~a", " toggle", "p => r", "quit ", "q"]
    let text := "bound r := a = ~a\ndisplay: bool\n~p\n"
    lines ≠ [] ∧ Positional lines lines ∧
      execute lines ⟨[]⟩ "" = .ok (.evaluated text "") ∧
      ∃ pieces, String.join pieces = text ∧ ∀ prompt, ∃ spoken,
        run prompt (Session.ofEnvironment ⟨[]⟩) lines (limit ⟨[]⟩) = .ok spoken ∧
          spoken.output = banner ++ "\n" ++ usage ++ "\n" ++ String.join (pieces.map (prompt ++ ·)) ∧
          spoken.reads = pieces.length := by
  intro lines text
  have hne : lines ≠ [] := by decide
  have hargs : Positional lines lines := .plain (by decide)
  have hquits : lines.any quits = true := by decide
  have hshown : (execute lines ⟨[]⟩ "").toOption = some (.evaluated text "") := by decide +kernel
  obtain ⟨-, done, -, -, -, hexecute, ⟨pieces, hpieces, hrun⟩, -⟩ :=
    arguments_agree_with_loop ⟨[]⟩ "" hne hargs
  rw [hexecute, Except.toOption, Option.some.injEq, Outcome.evaluated.injEq] at hshown
  obtain ⟨houtput, hlog⟩ := hshown
  rw [hquits, if_pos rfl, houtput, String.append_empty] at hpieces
  exact ⟨hne, hargs, by rw [hexecute, houtput, hlog], pieces, hpieces,
    fun prompt => ⟨_, hrun prompt, rfl, rfl⟩⟩

end CommandLine

end Propositional
