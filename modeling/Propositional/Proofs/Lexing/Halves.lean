/-
Blanks part a text into halves that know nothing of each other. The lexemes of a text with a
blank in it are those of the text before the blank and those of the text behind it; the second
ones are reported further on, and what the first text breaks off has the blank in place of
nothing (`blanks_part_texts`). That is what happens to the text's own lexemes; those which the
word `ans` stands for stay as they are, so it is recorded where a lexeme comes from (`Traced`).
A token is lexed alone as it was lexed among others. So the tokens of a text are also those of
their texts joined by blanks.
-/
import Propositional.Proofs.Lexing.Joined

namespace Propositional

open Piece (isGap)

/-- The diagnostic once the text goes on with `w`. -/
def Diagnostic.closedBy (w : Char) (d : Diagnostic) : Diagnostic :=
  { d with flaw := d.flaw.closedBy w }

/-- The diagnostic of a text that begins further on. -/
def Diagnostic.moved (shift : Nat) (d : Diagnostic) : Diagnostic :=
  { d with position := d.position + shift }

/-- A lexeme of a text, its own or one that the word `ans` stands for. -/
inductive Traced
  | own (lexeme : Lexeme)
  | recalled (lexeme : Lexeme)
  deriving DecidableEq, Repr

namespace Traced

def lexeme : Traced → Lexeme
  | own l | recalled l => l

/-- Revises what the text itself has malformed. -/
def revise (f : Diagnostic → Diagnostic) : Traced → Traced
  | own (.malformed d) => own (.malformed (f d))
  | traced => traced

/-- The lexemes that a piece contributes. -/
def ofPiece (known : Option (List Lexeme)) (placed : Nat × Piece) : List Traced :=
  match known, placed with
  | some lexemes, (_, ⟨text, .word⟩) =>
    if String.ofList text = Token.answer then lexemes.map recalled
    else (Lexeme.ofPiece none placed).map own
  | _, _ => (Lexeme.ofPiece none placed).map own

/-- The lexemes of a text that begins at a position. -/
def scanFrom (known : Option (List Lexeme)) (position : Nat) (source : List Char) :
    List Traced :=
  (Piece.cutAll position 0 source).flatMap (ofPiece known)

/-- The lexemes of a text after a previous one. -/
def ofSource (source previous : String) : List Traced :=
  scanFrom (if previous = "" then none else some (Lexeme.scan none previous)) 0 source.toList

variable (known : Option (List Lexeme))

theorem lexeme_ofPiece (placed : Nat × Piece) :
    (ofPiece known placed).map lexeme = Lexeme.ofPiece known placed := by
  have hown : ∀ lexemes : List Lexeme, (lexemes.map own).map lexeme = lexemes := by
    simp [Function.comp_def, lexeme]
  obtain ⟨position, text, reading⟩ := placed
  cases known with
  | none => exact hown _
  | some lexemes =>
    cases reading with
    | gap | operator | malformed => rfl
    | word =>
      simp only [ofPiece, Lexeme.ofPiece]
      split
      · simp [Function.comp_def, lexeme]
      · exact hown _

theorem lexeme_ofSource (source previous : String) :
    (ofSource source previous).map lexeme = Lexeme.ofSource source previous := by
  simp only [ofSource, scanFrom, List.map_flatMap, lexeme_ofPiece]
  rfl

theorem revise_word (f : Diagnostic → Diagnostic) (position position' : Nat) (text : List Char) :
    (ofPiece known (position, ⟨text, .word⟩)).map (revise f) =
      ofPiece known (position', ⟨text, .word⟩) := by
  cases known with
  | none => rfl
  | some lexemes =>
    simp only [ofPiece]
    split
    · rw [List.map_map]
      rfl
    · rfl

theorem ofPiece_closedBy (w : Char) (placed : Nat × Piece) :
    ofPiece known (Prod.map id (Piece.closedBy w) placed) =
      (ofPiece known placed).map (revise (.closedBy w)) := by
  obtain ⟨position, text, reading⟩ := placed
  cases reading with
  | gap | operator => cases known <;> rfl
  | word => exact (revise_word known _ position position text).symm
  | malformed flaw =>
    have hpiece : ofPiece known (position, ⟨text, .malformed flaw⟩) =
        [own (.malformed ⟨position, flaw⟩)] := by
      cases known <;> rfl
    cases hopen : flaw.isOpen with
    | true =>
      have hclosed : Piece.closedBy w ⟨text, .malformed flaw⟩ =
          ⟨text ++ [w], .malformed (flaw.closedBy w)⟩ := if_pos hopen
      rw [Prod.map_apply, hclosed, hpiece]
      cases known <;> rfl
    | false =>
      have hclosed : Piece.isOpen ⟨text, .malformed flaw⟩ = false := hopen
      rw [Prod.map_apply, Piece.closedBy_of_closed hclosed, id, hpiece]
      simp only [List.map_cons, List.map_nil, revise, Diagnostic.closedBy,
        Flaw.closedBy_of_closed hopen]

theorem ofPiece_moved (shift : Nat) (placed : Nat × Piece) :
    ofPiece known (Prod.map (· + shift) id placed) =
      (ofPiece known placed).map (revise (.moved shift)) := by
  obtain ⟨position, text, reading⟩ := placed
  cases reading with
  | gap | operator | malformed => cases known <;> rfl
  | word => exact (revise_word known _ position (position + shift) text).symm

theorem scanFrom_marks (position : Nat) (source : List Char) :
    scanFrom known position source = (Lexeme.marks position source).flatMap (ofPiece known) :=
  Lexeme.flatMap_marks (fun _ _ => by cases known <;> rfl) position source

theorem scanFrom_moved (shift position : Nat) (source : List Char) :
    scanFrom known (position + shift) source =
      (scanFrom known position source).map (revise (.moved shift)) := by
  simp only [scanFrom, Lexeme.cutAll_moved, List.flatMap_map, List.map_flatMap, ofPiece_moved]

/-- **A text comes apart at a blank.** -/
theorem scanFrom_parted {w : Char} (hw : isGap w) (position : Nat) (a b : List Char) :
    scanFrom known position (a ++ w :: b) =
      (scanFrom known position a).map (revise (.closedBy w)) ++
        (scanFrom known position b).map (revise (.moved (a.length + 1))) := by
  rw [← scanFrom_moved, scanFrom_marks, Lexeme.marks_before_gap hw, List.flatMap_append,
    ← scanFrom_marks, scanFrom_marks known position a, List.flatMap_map, List.map_flatMap,
    Nat.add_assoc]
  simp only [ofPiece_closedBy]

theorem ofSource_parted {w : Char} (hw : isGap w) (a b previous : String) :
    ofSource (a ++ String.singleton w ++ b) previous =
      (ofSource a previous).map (revise (.closedBy w)) ++
        (ofSource b previous).map (revise (.moved (a.length + 1))) := by
  have htext : (a ++ String.singleton w ++ b).toList = a.toList ++ w :: b.toList := by simp
  rw [ofSource, htext, scanFrom_parted _ hw, String.length_toList]
  rfl

theorem revise_clean (f : Diagnostic → Diagnostic) {lexemes : List Traced}
    (h : Lexeme.diagnostics (lexemes.map lexeme) = []) : lexemes.map (revise f) = lexemes := by
  induction lexemes with
  | nil => rfl
  | cons traced rest ih =>
    have hsplit := Lexeme.diagnostics_append [traced.lexeme] (rest.map lexeme)
    rw [List.singleton_append, ← List.map_cons, h] at hsplit
    obtain ⟨hfirst, hrest⟩ := List.append_eq_nil_iff.1 hsplit.symm
    rw [List.map_cons, ih hrest]
    cases traced with
    | recalled l => rfl
    | own l =>
      cases l with
      | token t => rfl
      | malformed d => cases hfirst

/-- A piece that the text breaks off is all that is left of it. -/
theorem cut_open {c : Char} {rest : List Char} (h : (Piece.cut c rest).isOpen) :
    (Piece.cut c rest).text = c :: rest := by
  by_cases hc : isGap c
  · rw [Lexeme.cut_gap hc] at h
    cases h
  · have hblank : isGap ' ' := by decide
    rcases Lexeme.cut_before_gap hblank (Bool.eq_false_iff.2 hc) rest with
      ⟨hclosed, -⟩ | ⟨flaw, -, hcut, -⟩
    · rw [hclosed] at h
      cases h
    · rw [hcut]

theorem ofPiece_own {placed : Nat × Piece} {d : Diagnostic}
    (h : own (.malformed d) ∈ ofPiece known placed) :
    placed.2.reading = .malformed d.flaw ∧ ofPiece known placed = [own (.malformed d)] := by
  obtain ⟨position, text, reading⟩ := placed
  cases reading with
  | gap => cases known <;> cases h
  | operator kind => cases known <;> cases List.mem_singleton.1 h
  | malformed flaw => cases known <;> cases List.mem_singleton.1 h <;> exact ⟨rfl, rfl⟩
  | word =>
    cases known with
    | none => cases List.mem_singleton.1 h
    | some lexemes =>
      simp only [ofPiece] at h
      split at h
      · obtain ⟨l, -, hl⟩ := List.mem_map.1 h
        cases hl
      · cases List.mem_singleton.1 h

theorem open_last {position : Nat} {source : List Char} {d : Diagnostic} (hopen : d.flaw.isOpen)
    (h : own (.malformed d) ∈ scanFrom known position source) :
    (scanFrom known position source).getLast? = some (own (.malformed d)) := by
  have hlast : ∀ (source : List Char) (position taken : Nat),
      own (.malformed d) ∈ (Piece.cutAll position taken source).flatMap (ofPiece known) →
      ((Piece.cutAll position taken source).flatMap (ofPiece known)).getLast? =
        some (own (.malformed d)) := by
    intro source
    induction source with
    | nil =>
      intro position taken h
      rw [Piece.cutAll] at h
      cases h
    | cons c rest ih =>
      intro position taken h
      cases taken with
      | succ taken => exact ih (position + 1) taken h
      | zero =>
        rw [Piece.cutAll, List.flatMap_cons, List.mem_append] at h
        rw [Piece.cutAll, List.flatMap_cons]
        rcases h with h | h
        · obtain ⟨hreading, hpiece⟩ := ofPiece_own known h
          have htext : (Piece.cut c rest).text = c :: rest := by
            refine cut_open ?_
            rw [Piece.isOpen, hreading]
            exact hopen
          have hnothing :
              Piece.cutAll (position + 1) ((Piece.cut c rest).text.length - 1) rest = [] := by
            rw [htext, Lexeme.cutAll_taken, List.length_cons, Nat.add_sub_cancel, List.drop_length,
              Piece.cutAll]
          rw [hnothing, hpiece]
          rfl
        · rw [List.getLast?_append, ih _ _ h, Option.some_or]
  exact hlast source position 0 h

end Traced

namespace Lexeme

theorem tokens_revised (f : Diagnostic → Diagnostic) (lexemes : List Traced) :
    tokens ((lexemes.map (Traced.revise f)).map Traced.lexeme) =
      tokens (lexemes.map Traced.lexeme) := by
  induction lexemes with
  | nil => rfl
  | cons traced rest ih =>
    have hfirst : token? (Traced.revise f traced).lexeme = token? traced.lexeme := by
      obtain (_ | _) | (_ | _) := traced <;> rfl
    simp only [tokens, List.map_cons, List.filterMap_cons, hfirst] at ih ⊢
    rw [ih]

theorem ofSource_parted {a b previous : String} {w : Char} (hw : isGap w)
    (ha : diagnostics (ofSource a previous) = []) (hb : diagnostics (ofSource b previous) = []) :
    ofSource (a ++ String.singleton w ++ b) previous = ofSource a previous ++ ofSource b previous := by
  rw [← Traced.lexeme_ofSource] at ha hb
  rw [← Traced.lexeme_ofSource, Traced.ofSource_parted hw, Traced.revise_clean _ ha,
    Traced.revise_clean _ hb, List.map_append, Traced.lexeme_ofSource, Traced.lexeme_ofSource]

theorem Written.ofSource {t : Token} (h : Written t) : Lexeme.ofSource t.text = [token t] := by
  have hsigns : ∀ s ∈ Token.spellings, Lexeme.ofSource s.1 = [token ⟨s.2, s.1⟩] := by decide
  cases h with
  | operator hs => exact hsigns _ hs
  | word hlong hletters => exact (Lexes.word hlong hletters).ofSource

/-- The texts of some tokens joined by blanks have just these tokens. -/
theorem ofSource_joined_texts {ts : List Token} (h : ∀ t ∈ ts, Written t) :
    ofSource (" ".intercalate (ts.map (·.text))) = ts.map token := by
  induction ts with
  | nil => rfl
  | cons t rest ih =>
    obtain ⟨ht, hrest⟩ := List.forall_mem_cons.1 h
    cases rest with
    | nil => exact ht.ofSource
    | cons u rest =>
      have hblank : isGap ' ' := by decide
      have hfirst : diagnostics (ofSource t.text) = [] := congrArg diagnostics ht.ofSource
      have hlater := ih hrest
      have hclean : diagnostics (ofSource (" ".intercalate ((u :: rest).map (·.text)))) = [] := by
        rw [hlater, diagnostics_map_token]
      rw [List.map_cons] at hlater hclean
      rw [List.map_cons, List.map_cons, String.intercalate_cons_cons]
      have hparted := ofSource_parted hblank hfirst hclean
      rw [hlater, ht.ofSource] at hparted
      exact hparted

/-- **Blanks part a text into independent halves.** Let a blank stand between two texts. The
tokens of the whole are those of the first and those of the second. Its lexemes are those of the
first and those of the second one after the other, the tokens and all that `ans` stands for
unchanged: but of what is malformed in the texts themselves, that of the second is reported
further on by the length of the first and the blank; and a sign that the end of the first
text breaks off, which can only be the last of its lexemes, is reported with the blank found
where nothing was. So the texts of the tokens of any text, joined by single blanks, have these
tokens without a previous text, and nothing malformed. -/
theorem blanks_part_texts (a b previous : String) {w : Char}
    (hw : w = ' ' ∨ w = '\t' ∨ w = '\n') :
    tokens (ofSource (a ++ String.singleton w ++ b) previous) =
        tokens (ofSource a previous) ++ tokens (ofSource b previous) ∧
      Traced.ofSource (a ++ String.singleton w ++ b) previous =
        (Traced.ofSource a previous).map (.revise (.closedBy w)) ++
          (Traced.ofSource b previous).map (.revise (.moved (a.length + 1))) ∧
      (∀ d : Diagnostic, d.flaw.isOpen → .own (.malformed d) ∈ Traced.ofSource a previous →
        (Traced.ofSource a previous).getLast? = some (.own (.malformed d))) ∧
      (∀ source, (Traced.ofSource source previous).map Traced.lexeme =
        ofSource source previous) ∧
      ∀ source, ofSource (" ".intercalate ((tokens (ofSource source previous)).map (·.text))) =
        (tokens (ofSource source previous)).map token := by
  have hblank : isGap w := by rcases hw with rfl | rfl | rfl <;> decide
  have hparted := Traced.ofSource_parted hblank a b previous
  refine ⟨?_, hparted, fun d hopen hmem => Traced.open_last _ hopen hmem,
    fun source => Traced.lexeme_ofSource source previous, fun source => ofSource_joined_texts ?_⟩
  · rw [← Traced.lexeme_ofSource, hparted, List.map_append, tokens_append, tokens_revised,
      tokens_revised, Traced.lexeme_ofSource, Traced.lexeme_ofSource]
  · intro t ht
    obtain ⟨l, hl, htoken⟩ := List.mem_filterMap.1 ht
    cases l with
    | malformed d => cases htoken
    | token u =>
      cases htoken
      exact written_ofSource hl

/-- The dash at the end of the first text is closed by the tab. What the end of the previous
text breaks off stays so, and stays in its place, in both texts. -/
theorem blanks_part_texts_broken :
    isGap '\t' ∧
      Traced.ofSource "ans -" "p <" =
        [.recalled (.token ⟨.identifier, "p"⟩), .recalled (.malformed ⟨2, .twinArrow none⟩),
          .own (.malformed ⟨4, .arrow none⟩)] ∧
      Traced.ofSource ("ans -" ++ String.singleton '\t' ++ "$ ans") "p <" =
        [.recalled (.token ⟨.identifier, "p"⟩), .recalled (.malformed ⟨2, .twinArrow none⟩),
          .own (.malformed ⟨4, .arrow (some '\t')⟩), .own (.malformed ⟨6, .unknown '$'⟩),
          .recalled (.token ⟨.identifier, "p"⟩), .recalled (.malformed ⟨2, .twinArrow none⟩)] ∧
      Lexeme.tokens (Lexeme.ofSource ("ans -" ++ String.singleton '\t' ++ "$ ans") "p <") =
        [⟨.identifier, "p"⟩, ⟨.identifier, "p"⟩] := by
  obtain ⟨htokens, htraced, -⟩ := blanks_part_texts "ans -" "$ ans" "p <" (.inr (.inl rfl))
  exact ⟨by decide, by decide, htraced.trans (by decide), htokens.trans (by decide)⟩

end Lexeme

end Propositional
