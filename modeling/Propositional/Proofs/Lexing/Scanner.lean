/-
Lexing on demand. A scanner stands at some place of a text, or inside the previous text while
that takes the place of a word `ans`; asked for a token it reads on, piece by piece, until it has
one or the text ends, and reports what is malformed on the way. What a scanner has still to give
is a list of lexemes, of which each piece takes its own (`lexemes_step`). So to ask it for a
token is to pull one from that list (`next_eq_pull`), wherever it stands, and what it meets when
it is asked for some tokens is what stands between them in the list (`asked_before`).
-/
import Propositional.Parser.Stream
import Propositional.Proofs.Lexing.Chunks

namespace Propositional

open Lexeme (ofPiece scanFrom lexFrom)

/-- A place in a text: how far it is from the beginning, and the text behind it. -/
structure Cursor where
  position : Nat
  rest : List Char

namespace Cursor

/-- The piece at a place, and the place behind the piece. -/
def piece? (c : Cursor) : Option (Piece × Cursor) :=
  match c.rest with
  | [] => none
  | d :: rest =>
    let piece := Piece.cut d rest
    some (piece, ⟨c.position + piece.text.length, (d :: rest).drop piece.text.length⟩)

variable {c after : Cursor} {piece : Piece}

theorem piece?_eq_none (h : c.piece? = none) : c.rest = [] := by
  unfold piece? at h
  split at h
  · assumption
  · cases h

theorem piece?_shorter (h : c.piece? = some (piece, after)) : after.rest.length < c.rest.length := by
  unfold piece? at h
  split at h
  · cases h
  · next d rest hrest =>
    cases h
    have hlong := List.length_pos_iff.2 (Chunk.begins_cut d rest).nonempty
    rw [hrest, List.length_drop]
    simp only [List.length_cons]
    omega

/-- The piece at a place contributes first, and what is behind it then. -/
theorem scanFrom_piece? (recalled : Option (List Lexeme)) (h : c.piece? = some (piece, after)) :
    scanFrom recalled c.position c.rest =
      ofPiece recalled (c.position, piece) ++ scanFrom recalled after.position after.rest := by
  unfold piece? at h
  split at h
  · cases h
  · next d rest hrest =>
    cases h
    obtain ⟨e, text, htext⟩ := List.exists_cons_of_ne_nil (Chunk.begins_cut d rest).nonempty
    rw [hrest, Lexeme.scanFrom_cons, htext]
    simp only [List.length_cons, Nat.add_sub_cancel, List.drop_succ_cons, Nat.add_assoc,
      Nat.add_comm 1]

end Cursor

/-- A lexer between two pieces: the previous text, the place in the text, and the place inside
the previous text while that is lexed in place of `ans`. -/
structure Scanner where
  previous : String
  place : Cursor
  inside : Option Cursor

namespace Scanner

def start (source previous : String) : Scanner := ⟨previous, ⟨0, source.toList⟩, none⟩

/-- Reads one piece, or leaves the previous text; none at the end of the text. A piece gives a
lexeme unless it is a gap or a word that the previous text stands for. -/
def step (s : Scanner) : Option (Option Lexeme × Scanner) :=
  match s.inside with
  | some c =>
    match c.piece? with
    | some (piece, after) =>
      some ((ofPiece none (c.position, piece)).head?, { s with inside := some after })
    | none => some (none, { s with inside := none })
  | none =>
    match s.place.piece? with
    | none => none
    | some (piece, after) =>
      if piece.reading = .word ∧ String.ofList piece.text = Token.answer ∧ s.previous ≠ "" then
        some (none, { s with place := after, inside := some ⟨0, s.previous.toList⟩ })
      else some ((ofPiece none (s.place.position, piece)).head?, { s with place := after })

/-- How much is left: of the text, and then of the previous text. -/
def left (s : Scanner) : Nat × Nat :=
  (s.place.rest.length, s.inside.elim 0 fun c => c.rest.length + 1)

variable {s after : Scanner} {lexeme : Option Lexeme}

theorem step_left (h : s.step = some (lexeme, after)) :
    Prod.Lex (· < ·) (· < ·) after.left s.left := by
  unfold step at h
  split at h
  · next c hinside =>
    split at h
    · next piece c' hpiece =>
      cases h
      have hshort := Cursor.piece?_shorter hpiece
      rw [left, left, hinside]
      exact .right _ (Nat.succ_lt_succ hshort)
    · cases h
      rw [left, left, hinside]
      exact .right _ (Nat.succ_pos _)
  · split at h
    · cases h
    · next piece c' hpiece =>
      have hshort := Cursor.piece?_shorter hpiece
      split at h <;> cases h <;> exact .left _ _ hshort

/-- Asks for a token: the token or the end of the text, the diagnostics met on the way, and
where the scanner stands then. -/
def next (s : Scanner) : Option Token × List Diagnostic × Scanner :=
  match _h : s.step with
  | none => (none, [], s)
  | some (none, after) => after.next
  | some (some (.token t), after) => (some t, [], after)
  | some (some (.malformed d), after) =>
    let (t, diagnostics, later) := after.next
    (t, d :: diagnostics, later)
  termination_by s.left
  decreasing_by all_goals exact step_left ‹_›

/-- What comes of asking for a token so many times: the answers, the diagnostics met, and where
the scanner stands then. -/
def asked : Nat → Scanner → List (Option Token) × List Diagnostic × Scanner
  | 0, s => ([], [], s)
  | n + 1, s =>
    let (t, diagnostics, after) := s.next
    let (answers, later, last) := asked n after
    (t :: answers, diagnostics ++ later, last)

/-- What the scanner has still to give. -/
def lexemes (s : Scanner) : List Lexeme :=
  (s.inside.elim [] fun c => lexFrom c.position c.rest) ++
    scanFrom (if s.previous = "" then none else some (Lexeme.scan none s.previous))
      s.place.position s.place.rest

theorem lexemes_start (source previous : String) :
    (start source previous).lexemes = Lexeme.ofSource source previous := rfl

theorem ofPiece_none (placed : Nat × Piece) :
    ofPiece none placed = (ofPiece none placed).head?.toList := by
  obtain ⟨position, text, reading⟩ := placed
  cases reading <;> rfl

theorem ofPiece_plain {recalled : Option (List Lexeme)} {position : Nat} {piece : Piece}
    (h : ¬ (piece.reading = .word ∧ String.ofList piece.text = Token.answer ∧ recalled.isSome)) :
    ofPiece recalled (position, piece) = ofPiece none (position, piece) := by
  obtain ⟨text, reading⟩ := piece
  cases reading with
  | gap | operator | malformed => rfl
  | word =>
    cases recalled with
    | none => rfl
    | some lexemes =>
      have hword : String.ofList text ≠ Token.answer := fun hword => h ⟨rfl, hword, rfl⟩
      simp only [ofPiece, if_neg hword]

theorem lexemes_of_done (h : s.step = none) : s.lexemes = [] := by
  unfold step at h
  split at h
  · split at h <;> cases h
  · next hinside =>
    split at h
    · next hpiece =>
      rw [lexemes, hinside, Cursor.piece?_eq_none hpiece]
      rfl
    · split at h <;> cases h

/-- **Each step takes its lexeme from those still to come**, also where it enters or leaves
the previous text. -/
theorem lexemes_step (h : s.step = some (lexeme, after)) :
    s.lexemes = lexeme.toList ++ after.lexemes := by
  have hscan : ∀ position rest, lexFrom position rest = scanFrom none position rest :=
    fun _ _ => rfl
  unfold step at h
  split at h
  · next c hinside =>
    split at h
    · next piece c' hpiece =>
      cases h
      simp only [lexemes, hinside, Option.elim_some, hscan, ← ofPiece_none,
        Cursor.scanFrom_piece? none hpiece, List.append_assoc]
    · next hpiece =>
      cases h
      simp only [lexemes, hinside, Option.elim_some, Option.elim_none,
        Cursor.piece?_eq_none hpiece]
      rfl
  · next hinside =>
    split at h
    · cases h
    · next piece c' hpiece =>
      split at h
      · next hanswer =>
        -- the word itself gives no lexeme; those that it stands for come from inside
        obtain ⟨hreading, htext, hprevious⟩ := hanswer
        cases h
        obtain ⟨text, reading⟩ := piece
        subst hreading
        have hpiece' : ofPiece (some (Lexeme.scan none s.previous))
            (s.place.position, ⟨text, .word⟩) = lexFrom 0 s.previous.toList := if_pos htext
        simp only [lexemes, hinside, Option.elim_some, Option.elim_none, if_neg hprevious,
          Cursor.scanFrom_piece? _ hpiece, hpiece', List.nil_append, Option.toList_none]
      · next hplain =>
        cases h
        have hpiece' : ofPiece (if s.previous = "" then none else some (Lexeme.scan none s.previous))
            (s.place.position, piece) = ofPiece none (s.place.position, piece) := by
          refine ofPiece_plain fun ⟨hreading, htext, hrecalled⟩ => hplain ⟨hreading, htext, ?_⟩
          intro hprevious
          rw [if_pos hprevious] at hrecalled
          cases hrecalled
        simp only [lexemes, hinside, Option.elim_none, List.nil_append,
          Cursor.scanFrom_piece? _ hpiece, hpiece', ← ofPiece_none]

/-- To ask a scanner for a token is to pull one from the lexemes still to come. -/
theorem next_eq_pull (s : Scanner) :
    Parser.Stream.pull s.lexemes = (s.next.1, s.next.2.2.lexemes, s.next.2.1) := by
  fun_induction next s with
  | case1 s h => rw [lexemes_of_done h]; rfl
  | case2 s after h ih => rw [lexemes_step h]; exact ih
  | case3 s t after h => rw [lexemes_step h]; rfl
  | case4 s d after h t diagnostics later hnext ih =>
    rw [hnext] at ih
    rw [lexemes_step h]
    change Parser.Stream.pull (.malformed d :: after.lexemes) = _
    rw [Parser.Stream.pull, ih]

end Scanner

/-! ## Pulling more than one token -/

namespace Lexeme

open Propositional.Parser (Stream)

/-- What comes of pulling a token so many times: the answers, the diagnostics before them, and
the lexemes left. -/
def pulled : Nat → List Lexeme → List (Option Token) × List Diagnostic × List Lexeme
  | 0, lexemes => ([], [], lexemes)
  | n + 1, lexemes =>
    let (t, rest, diagnostics) := Stream.pull lexemes
    let (answers, later, last) := pulled n rest
    (t :: answers, diagnostics ++ later, last)

theorem pulled_malformed (n : Nat) (d : Diagnostic) (lexemes : List Lexeme) :
    pulled (n + 1) (.malformed d :: lexemes) =
      ((pulled (n + 1) lexemes).1, d :: (pulled (n + 1) lexemes).2.1,
        (pulled (n + 1) lexemes).2.2) := rfl

/-- Up to a token, the tokens are pulled one by one, with all diagnostics before it. -/
theorem pulled_before (before after : List Lexeme) (t : Token) :
    pulled ((tokens before).length + 1) (before ++ .token t :: after) =
      ((tokens before ++ [t]).map some, diagnostics before, after) := by
  induction before with
  | nil => rfl
  | cons lexeme before ih =>
    cases lexeme with
    | malformed d =>
      have htokens : tokens (.malformed d :: before) = tokens before := rfl
      rw [htokens, List.cons_append, pulled_malformed, ih]
      rfl
    | token u =>
      have hlength : (tokens (.token u :: before)).length = (tokens before).length + 1 := rfl
      rw [hlength, List.cons_append, pulled]
      simp only [Stream.pull, ih]
      rfl

theorem pulled_all (lexemes : List Lexeme) :
    pulled ((tokens lexemes).length + 1) lexemes =
      ((tokens lexemes).map some ++ [none], diagnostics lexemes, []) := by
  induction lexemes with
  | nil => rfl
  | cons lexeme rest ih =>
    cases lexeme with
    | malformed d =>
      have htokens : tokens (.malformed d :: rest) = tokens rest := rfl
      rw [htokens, pulled_malformed, ih]
      rfl
    | token u =>
      have hlength : (tokens (.token u :: rest)).length = (tokens rest).length + 1 := rfl
      rw [hlength, pulled]
      simp only [Stream.pull, ih]
      rfl

end Lexeme

namespace Scanner

/-- To ask for tokens is to pull them from the lexemes still to come. -/
theorem asked_eq_pulled (n : Nat) (s : Scanner) :
    Lexeme.pulled n s.lexemes =
      ((asked n s).1, (asked n s).2.1, (asked n s).2.2.lexemes) := by
  induction n generalizing s with
  | zero => rfl
  | succ n ih => simp only [Lexeme.pulled, next_eq_pull, ih, asked]

variable {s : Scanner}

theorem asked_of_pulled {n : Nat} {answers : List (Option Token)} {met : List Diagnostic}
    {after : List Lexeme} (h : Lexeme.pulled n s.lexemes = (answers, met, after)) :
    ∃ last, s.asked n = (answers, met, last) ∧ last.lexemes = after := by
  rw [asked_eq_pulled] at h
  cases h
  exact ⟨_, rfl, rfl⟩

theorem asked_before {before after : List Lexeme} {t : Token}
    (h : s.lexemes = before ++ .token t :: after) :
    ∃ last, s.asked ((Lexeme.tokens before).length + 1) =
        ((Lexeme.tokens before ++ [t]).map some, Lexeme.diagnostics before, last) ∧
      last.lexemes = after :=
  asked_of_pulled (h ▸ Lexeme.pulled_before before after t)

theorem asked_all (s : Scanner) :
    ∃ last, s.asked ((Lexeme.tokens s.lexemes).length + 1) =
        ((Lexeme.tokens s.lexemes).map some ++ [none], Lexeme.diagnostics s.lexemes, last) ∧
      last.lexemes = [] :=
  asked_of_pulled (Lexeme.pulled_all s.lexemes)

end Scanner

end Propositional
