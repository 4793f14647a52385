/-
Runs of a session. Whatever is done with a session whose stored rules are
equivalences of formulas, every line is answered and every answer can be shown
(`every_line_is_answered`), and the session at the end is what the history tells
(`session_is_history`): an entry changes the part of the session that it is about
and no other (`told_line`), so of the entries about a part the last one decides.
-/
import Propositional.Proofs.Session.Answers

namespace Propositional

theorem eraseDups_of_nodup {α : Type} [DecidableEq α] {xs : List α} (h : xs.Nodup) :
    xs.eraseDups = xs := by
  induction xs with
  | nil => rfl
  | cons x xs ih =>
    obtain ⟨hx, hxs⟩ := List.nodup_cons.1 h
    have hkept : xs.filter (fun y => !y == x) = xs := by
      rw [List.filter_eq_self]
      intro y hy
      have hne : y ≠ x := fun e => hx (e ▸ hy)
      simp [hne]
    rw [List.eraseDups_cons, hkept, ih hxs]

namespace OrderedMap

variable {κ α : Type} [DecidableEq κ]

/-- The map after the entries have been bound one after the other. -/
def insertAll (m : OrderedMap κ α) (es : List (κ × α)) : OrderedMap κ α :=
  es.foldl (fun m e => m.insert e.1 e.2) m

theorem insertAll_cons (m : OrderedMap κ α) (e : κ × α) (es : List (κ × α)) :
    m.insertAll (e :: es) = (m.insert e.1 e.2).insertAll es := rfl

theorem insertAll_append (m : OrderedMap κ α) (xs ys : List (κ × α)) :
    m.insertAll (xs ++ ys) = (m.insertAll xs).insertAll ys :=
  List.foldl_append

theorem get?_insertAll (m : OrderedMap κ α) (es : List (κ × α)) (k : κ) :
    (m.insertAll es).get? k = (es.reverse.lookup k).or (m.get? k) := by
  induction es generalizing m with
  | nil => rfl
  | cons e es ih =>
    obtain ⟨key, value⟩ := e
    rw [insertAll_cons, ih, List.reverse_cons, List.lookup_append, Option.or_assoc]
    congr 1
    by_cases hk : k = key
    · subst hk
      rw [get?_insert_self, List.lookup_cons_self, Option.some_or]
    · rw [get?_insert_of_ne _ hk, List.lookup_cons, beq_eq_false_iff_ne.2 hk]
      rfl

theorem keys_insertAll (m : OrderedMap κ α) (es : List (κ × α)) :
    (m.insertAll es).keys = (m.keys ++ es.map (·.1)).eraseDups := by
  induction es generalizing m with
  | nil =>
    rw [List.map_nil, List.append_nil]
    exact (eraseDups_of_nodup m.nodup_keys).symm
  | cons e es ih =>
    rw [insertAll_cons, ih, keys_insert, List.map_cons]
    split
    · next hk =>
      have hknown : m.keys.contains e.1 = true := List.contains_iff_mem.2 hk
      rw [List.eraseDups_append, List.eraseDups_append, List.cons_removeAll, hknown,
        if_neg Bool.noConfusion]
    · rw [List.append_assoc, List.singleton_append]

end OrderedMap

namespace Session

open Nesting (Limit)

/-! ## What a history tells -/

/-- The session `s` is `start` with the changes that the entries tell of. -/
structure Told (start : Session) (entries : List Entry) (s : Session) : Prop where
  previous : s.previous = (entries.filterMap Entry.text?).getLast?.getD start.previous
  rules : s.rules = start.rules.insertAll (entries.filterMap Entry.rule?)
  display : s.display = Nat.repeat DisplayMode.toggled (entries.countP Entry.isToggle) start.display
  strict : s.strict = (entries.filterMap Entry.strict?).getLast?.getD start.strict

theorem Told.nil (s : Session) : Told s [] s := ⟨rfl, rfl, rfl, rfl⟩

theorem repeat_add {α : Type} (f : α → α) (m n : Nat) (a : α) :
    Nat.repeat f (m + n) a = Nat.repeat f n (Nat.repeat f m a) := by
  induction n with
  | zero => rfl
  | succ n ih => exact congrArg f ih

theorem Told.trans {a b c : Session} {xs ys : List Entry} (h₁ : Told a xs b) (h₂ : Told b ys c) :
    Told a (xs ++ ys) c where
  previous := by
    rw [h₂.previous, h₁.previous, List.filterMap_append, List.getLast?_append, Option.getD_or]
  rules := by
    rw [h₂.rules, h₁.rules, List.filterMap_append, OrderedMap.insertAll_append]
  display := by
    rw [h₂.display, h₁.display, List.countP_append, repeat_add]
  strict := by
    rw [h₂.strict, h₁.strict, List.filterMap_append, List.getLast?_append, Option.getD_or]

variable {limit : Limit} {start s : Session} {entries : List Entry}

theorem told_line {text : String} {turn : Turn}
    (h : Answers limit s (.ofText text s.previous) turn) :
    Told s [.answered s text turn] turn.session := by
  cases h with
  | @bound i lhs rhs name shown hread _ _ =>
    refine ⟨rfl, ?_, rfl, rfl⟩
    rw [List.filterMap_cons]
    simp only [Entry.rule?, hread]
    rfl
  | declined | rewritten | table => exact ⟨rfl, rfl, rfl, rfl⟩

/-- **A session is what its history tells.** -/
theorem History.told (h : History limit start entries s) (hrules : start.rules.HoldsFormulas) :
    Told start entries s := by
  induction h with
  | nil s => exact .nil s
  | line hprocess _ ih =>
    have hanswers := answers_of_process hrules hprocess
    exact (told_line hanswers).trans (ih (hanswers.holdsFormulas hrules))
  | @toggleDisplay s _ _ _ ih =>
    have hentry : Told s [.toggledDisplay] s.toggleDisplay := ⟨rfl, rfl, rfl, rfl⟩
    exact hentry.trans (ih hrules)
  | @setStrict s _ strict _ _ ih =>
    have hentry : Told s [.setStrict strict] (s.setStrict strict) := ⟨rfl, rfl, rfl, rfl⟩
    exact hentry.trans (ih hrules)

theorem Entry.rule?_answered {before : Session} {text name shown : String} {turn : Turn}
    {target rule : Node} (hanswer : turn.answer = .bound name shown)
    (hread : (Line.ofText text before.previous).read.outcome = .ok (.binding target rule)) :
    (answered before text turn).rule? = some (name, rule) := by
  simp only [rule?, hanswer, hread]

/-- A rule that has been bound stays until its name is bound anew. -/
theorem History.stored_rule {earlier later : List Entry} {e : Entry} {name : String} {rule : Node}
    (h : History limit start (earlier ++ e :: later) s) (hrules : start.rules.HoldsFormulas)
    (hbound : e.rule? = some (name, rule))
    (hlater : ∀ e ∈ later, ∀ rule, e.rule? ≠ some (name, rule)) :
    s.rules.get? name = some rule := by
  have hnone : (later.filterMap Entry.rule?).reverse.lookup name = none := by
    rw [List.lookup_eq_none_iff]
    intro p hp
    obtain ⟨e, he, hrule⟩ := List.mem_filterMap.1 (List.mem_reverse.1 hp)
    rw [bne_iff_ne]
    rintro rfl
    exact hlater e he p.2 hrule
  rw [(h.told hrules).rules, OrderedMap.get?_insertAll, List.filterMap_append,
    List.filterMap_cons_some hbound, List.reverse_append, List.reverse_cons, List.append_assoc,
    List.lookup_append, hnone, Option.none_or, List.singleton_append, List.lookup_cons_self,
    Option.some_or]

/-! ## Every run goes to its end -/

theorem History.holdsFormulas (h : History limit start entries s)
    (hrules : start.rules.HoldsFormulas) : s.rules.HoldsFormulas := by
  induction h with
  | nil => exact hrules
  | line hprocess _ ih => exact ih ((answers_of_process hrules hprocess).holdsFormulas hrules)
  | toggleDisplay _ ih | setStrict _ ih => exact ih hrules

theorem History.process (h : History limit start entries s) (hrules : start.rules.HoldsFormulas)
    {before : Session} {text : String} {turn : Turn} (hmem : .answered before text turn ∈ entries) :
    before.rules.HoldsFormulas ∧ before.process text limit = .ok turn := by
  induction h with
  | nil => cases hmem
  | line hprocess _ ih =>
    rcases List.mem_cons.1 hmem with heq | hmem
    · cases heq
      exact ⟨hrules, hprocess⟩
    · exact ih ((answers_of_process hrules hprocess).holdsFormulas hrules) hmem
  | toggleDisplay _ ih | setStrict _ ih =>
    rcases List.mem_cons.1 hmem with heq | hmem
    · cases heq
    · exact ih hrules hmem

theorem History.after (h : History limit start entries s) :
    Session.after limit start (entries.map Entry.action) = .ok s := by
  induction h with
  | nil => rfl
  | line hprocess _ ih =>
    rw [List.map_cons, Session.after, List.foldlM_cons, Entry.action, act, hprocess]
    exact ih
  | toggleDisplay _ ih | setStrict _ ih => exact ih

theorem history_exists (hrules : start.rules.HoldsFormulas) (limit : Limit)
    (actions : List Action) :
    ∃ entries s, History limit start entries s ∧ entries.map Entry.action = actions := by
  induction actions generalizing start with
  | nil => exact ⟨[], start, .nil start, rfl⟩
  | cons action actions ih =>
    cases action with
    | line text =>
      obtain ⟨turn, hprocess, hanswers⟩ := process_total hrules limit text
      obtain ⟨entries, s, hrun, rfl⟩ := ih (hanswers.holdsFormulas hrules)
      exact ⟨_, s, .line hprocess hrun, rfl⟩
    | toggleDisplay =>
      have htoggled : start.toggleDisplay.rules.HoldsFormulas := hrules
      obtain ⟨entries, s, hrun, rfl⟩ := ih htoggled
      exact ⟨_, s, .toggleDisplay hrun, rfl⟩
    | setStrict strict =>
      have hset : (start.setStrict strict).rules.HoldsFormulas := hrules
      obtain ⟨entries, s, hrun, rfl⟩ := ih hset
      exact ⟨_, s, .setStrict hrun, rfl⟩

theorem history_of_after {actions : List Action} (hrules : start.rules.HoldsFormulas)
    (h : Session.after limit start actions = .ok s) :
    ∃ entries, History limit start entries s ∧ entries.map Entry.action = actions := by
  obtain ⟨entries, s', hhistory, rfl⟩ := history_exists hrules limit actions
  obtain rfl : s' = s := Except.ok.inj (hhistory.after.symm.trans h)
  exact ⟨entries, hhistory, rfl⟩

theorem ReachableFrom.holdsFormulas (h : ReachableFrom limit start s)
    (hrules : start.rules.HoldsFormulas) : s.rules.HoldsFormulas := by
  obtain ⟨actions, hrun⟩ := h
  obtain ⟨entries, hhistory, -⟩ := history_of_after hrules hrun
  exact hhistory.holdsFormulas hrules

/-- **No line can bring a session down.** Start with no rules, any previous text,
any display mode and any strictness, and answer any lines, toggle the display and
set strictness as often as you like: this goes through, and in the session that
has come about then every line is answered, with an answer that can be shown in
either display mode. -/
theorem every_line_is_answered (limit : Limit) {start : Session} (hstart : start.rules = .empty)
    (actions : List Action) :
    ∃ s, Session.after limit start actions = .ok s ∧
      ∀ line, ∃ turn, s.process line limit = .ok turn ∧
        ∀ mode, ∃ text,
          { turn with session := { turn.session with display := mode } }.render = .ok text := by
  have hrules : start.rules.HoldsFormulas := hstart ▸ RuleStore.holdsFormulas_empty
  obtain ⟨entries, s, hrun, rfl⟩ := history_exists hrules limit actions
  refine ⟨s, hrun.after, fun line => ?_⟩
  obtain ⟨turn, hprocess, hanswers⟩ := process_total (hrun.holdsFormulas hrules) limit line
  exact ⟨turn, hprocess, fun mode => hanswers.render_ok _⟩

/-- A stored rule is called for in a line that takes in a previous text which is no formula. -/
theorem every_line_is_answered_unfinished :
    let start : Session := ⟨"p ->", .empty, .bool, true⟩
    start.rules = .empty ∧
      ∃ s, Session.after Nesting.standard start [.line "r := a & b = b", .setStrict false] = .ok s ∧
        ∃ turn, s.process "ans ) => r" = .ok turn ∧ ∃ text, turn.render = .ok text := by
  intro start
  have hstart : start.rules = .empty := rfl
  obtain ⟨s, hrun, hline⟩ := every_line_is_answered Nesting.standard hstart
    [.line "r := a & b = b", .setStrict false]
  obtain ⟨turn, hturn, hshown⟩ := hline "ans ) => r"
  exact ⟨hstart, s, hrun, turn, hturn, hshown turn.session.display⟩

/-- **A session is the history of its successful lines.** Start with rules that are
equivalences of formulas, and do anything. The run goes to its end and has a
history; the previous text is then that of the last table or rewritten formula,
each name has the rule that was last bound to it, the names stand in the order in
which they were first bound, the display has been toggled once for each toggle,
and strictness is as it was last set. What the history does not tell is as it was
at the start. A line that was answered with a diagnostic, for whatever reason, left
the whole session as it was. -/
theorem session_is_history (limit : Limit) {start : Session}
    (hrules : start.rules.HoldsFormulas) (actions : List Action) :
    ∃ entries s, History limit start entries s ∧ entries.map Entry.action = actions ∧
      Session.after limit start actions = .ok s ∧
      s.previous = (entries.filterMap Entry.text?).getLast?.getD start.previous ∧
      (∀ name, s.rules.get? name =
        ((entries.filterMap Entry.rule?).reverse.lookup name).or (start.rules.get? name)) ∧
      s.rules.keys = (start.rules.keys ++ (entries.filterMap Entry.rule?).map (·.1)).eraseDups ∧
      s.display = Nat.repeat DisplayMode.toggled (entries.countP Entry.isToggle) start.display ∧
      s.strict = (entries.filterMap Entry.strict?).getLast?.getD start.strict ∧
      ∀ before text turn, .answered before text turn ∈ entries →
        ∀ complaint message, turn.answer = .diagnostic complaint message →
          turn.session = before := by
  obtain ⟨entries, s, hrun, rfl⟩ := history_exists hrules limit actions
  have htold := hrun.told hrules
  refine ⟨entries, s, hrun, rfl, hrun.after, htold.previous, fun name => ?_, ?_, htold.display,
    htold.strict, fun before text turn hmem complaint message hanswer => ?_⟩
  · rw [htold.rules, OrderedMap.get?_insertAll]
  · rw [htold.rules, OrderedMap.keys_insertAll]
  · obtain ⟨hbefore, hprocess⟩ := hrun.process hrules hmem
    cases answers_of_process hbefore hprocess with
    | declined => rfl
    | bound | rewritten | table => cases hanswer

/-- A session with one rule. -/
def reordering : Session :=
  ⟨"", .ofList [("swap", .equivalence (.binary (.atom 0) .conj (.atom 1))
    (.binary (.atom 1) .conj (.atom 0)))], .bits, false⟩

/-- A formula, a line that fails, a new rule, the known rule bound anew, and a toggle. -/
def reorderingActions : List Action :=
  [.line "p & q", .line "p =>", .line "keep := a = ~~a", .line "swap := a | b = b | a",
    .toggleDisplay]

/-- The failure is not told of, and the rule that is bound anew keeps its place. -/
theorem session_is_history_rebound :
    reordering.rules.HoldsFormulas ∧
      ∃ entries s, History Nesting.standard reordering entries s ∧
        entries.map Entry.action = reorderingActions ∧
        (entries.filterMap Entry.text?).getLast?.getD reordering.previous = "p & q" ∧
        (reordering.rules.keys ++ (entries.filterMap Entry.rule?).map (·.1)).eraseDups =
          ["swap", "keep"] ∧
        Nat.repeat DisplayMode.toggled (entries.countP Entry.isToggle) reordering.display = .bool := by
  have hrules : reordering.rules.HoldsFormulas := by
    intro name rule hget
    cases List.mem_singleton.1 (OrderedMap.mem_entries_of_get? hget)
    exact ⟨.binary _ (.atom 0) (.atom 1), .binary _ (.atom 1) (.atom 0)⟩
  have hend : (Session.after Nesting.standard reordering reorderingActions).toOption.map
      (fun s => (s.previous, s.rules.keys, s.display)) =
        some ("p & q", ["swap", "keep"], .bool) := by
    decide +kernel
  obtain ⟨entries, s, hhistory, hactions, hrun, hprevious, -, hkeys, hdisplay, -, -⟩ :=
    session_is_history Nesting.standard hrules reorderingActions
  obtain ⟨s', hrun', hs'⟩ := ok_of_map_toOption hend
  rw [hrun] at hrun'
  cases hrun'
  simp only [Prod.mk.injEq] at hs'
  obtain ⟨hp, hk, hd⟩ := hs'
  exact ⟨hrules, entries, s, hhistory, hactions, hprevious ▸ hp, hkeys ▸ hk, hdisplay ▸ hd⟩

end Session

end Propositional
