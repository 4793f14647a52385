/-
What lexing does to a text, said without saying how. A text falls apart into chunks: where
a lexeme begins, the chunk is the longest one; where none does, it is malformed, and takes
along the character that broke it (`Begins`). A piece is the chunk that begins there, and
there is only one (`begins_cut`, `Begins.unique`); so a text can be cut into chunks in one
way, which is how it is cut into pieces (`cut_iff`). Each chunk contributes tokens and
diagnostics of its own, in order (`Yields`), and nothing of a text is passed over but
blanks (`lexing_is_exact`).
-/
import Propositional.Proofs.Lexing.Joined

namespace Propositional

open Piece (Reading)

namespace Chunk

/-- The operators of the language as they are written. -/
inductive Sign : List Char → Token.Kind → Prop
  | twinArrow : Sign ['<', '-', '>'] (.connective .bicond)
  | arrow : Sign ['-', '>'] (.connective .cond)
  | applies : Sign ['=', '>'] .applies
  | binds : Sign [':', '='] .binds
  | equals : Sign ['='] .equals
  | ampersand : Sign ['&'] (.connective .conj)
  | bar : Sign ['|'] (.connective .disj)
  | tilde : Sign ['~'] .negation
  | opening : Sign ['('] .opening
  | closing : Sign [')'] .closing

/-- The words that are operators. -/
inductive Keyword : String → Token.Kind → Prop
  | and : Keyword "and" (.connective .conj)
  | or : Keyword "or" (.connective .disj)
  | not : Keyword "not" .negation
  | implies : Keyword "implies" (.connective .cond)
  | equiv : Keyword "equiv" (.connective .bicond)
  | rule : Keyword "rule" .applies

def IsBlank (c : Char) : Prop := c = ' ' ∨ c = '\t' ∨ c = '\n'

def IsLetter (c : Char) : Prop := 'A' ≤ c ∧ c ≤ 'Z' ∨ 'a' ≤ c ∧ c ≤ 'z'

/-- The lexemes of the language. -/
inductive WellFormed : List Char → Reading → Prop
  | gap {text : List Char} : text ≠ [] → (∀ c ∈ text, IsBlank c) → WellFormed text .gap
  | operator {text : List Char} {kind : Token.Kind} : Sign text kind →
      WellFormed text (.operator kind)
  | word {text : List Char} : text ≠ [] → (∀ c ∈ text, IsLetter c) → WellFormed text .word

/-- The malformed chunks: a text, what is cut off it, and the flaw. -/
inductive Malformed : List Char → List Char → Flaw → Prop
  | tail (after : List Char) :
      Malformed ('<' :: '-' :: after) ('<' :: '-' :: after.head?.toList) (.twinArrow after.head?)
  | angle {after : List Char} : after.head? ≠ some '-' →
      Malformed ('<' :: after) ('<' :: after.head?.toList) (.twinArrow after.head?)
  | dash (after : List Char) :
      Malformed ('-' :: after) ('-' :: after.head?.toList) (.arrow after.head?)
  | colon (after : List Char) :
      Malformed (':' :: after) (':' :: after.head?.toList) (.binder after.head?)
  | unknown {c : Char} (after : List Char) : c ≠ '<' → c ≠ '-' → c ≠ ':' →
      Malformed (c :: after) [c] (.unknown c)

/-- The chunk that a text begins with. -/
inductive Begins (source : List Char) : Piece → Prop
  | longest {text : List Char} {reading : Reading} : WellFormed text reading → text <+: source →
      (∀ text' reading', WellFormed text' reading' → text' <+: source →
        text'.length ≤ text.length) →
      Begins source ⟨text, reading⟩
  | malformed {text : List Char} {flaw : Flaw} :
      (∀ text' reading, WellFormed text' reading → ¬ text' <+: source) →
      Malformed source text flaw → Begins source ⟨text, .malformed flaw⟩

/-- A text that begins at a position is cut into chunks, each with its position. -/
inductive Cut : Nat → List Char → List (Nat × Piece) → Prop
  | nil (position : Nat) : Cut position [] []
  | cons {position : Nat} {piece : Piece} {rest : List Char} {chunks : List (Nat × Piece)} :
      piece.text ≠ [] → Begins (piece.text ++ rest) piece →
      Cut (position + piece.text.length) rest chunks →
      Cut position (piece.text ++ rest) ((position, piece) :: chunks)

/-- The tokens and the diagnostics that a chunk contributes. -/
inductive Contributes (previous : String) : Nat × Piece → List Token → List Diagnostic → Prop
  | gap (position : Nat) (text : List Char) : Contributes previous (position, ⟨text, .gap⟩) [] []
  | operator (position : Nat) (text : List Char) (kind : Token.Kind) :
      Contributes previous (position, ⟨text, .operator kind⟩) [⟨kind, String.ofList text⟩] []
  | keyword (position : Nat) {word : String} {kind : Token.Kind} : Keyword word kind →
      Contributes previous (position, ⟨word.toList, .word⟩) [⟨kind, word⟩] []
  | name (position : Nat) {word : String} : (∀ kind, ¬ Keyword word kind) →
      (word = "ans" → previous = "") →
      Contributes previous (position, ⟨word.toList, .word⟩) [⟨.identifier, word⟩] []
  | answer (position : Nat) : previous ≠ "" →
      Contributes previous (position, ⟨"ans".toList, .word⟩)
        (Lexeme.tokens (Lexeme.ofSource previous ""))
        (Lexeme.diagnostics (Lexeme.ofSource previous ""))
  | malformed (position : Nat) (text : List Char) (flaw : Flaw) :
      Contributes previous (position, ⟨text, .malformed flaw⟩) [] [⟨position, flaw⟩]

/-- What chunks contribute one after the other. -/
inductive Yields (previous : String) :
    List (Nat × Piece) → List Token → List Diagnostic → Prop
  | nil : Yields previous [] [] []
  | cons {chunk : Nat × Piece} {chunks : List (Nat × Piece)} {first tokens : List Token}
      {found diagnostics : List Diagnostic} :
      Contributes previous chunk first found → Yields previous chunks tokens diagnostics →
      Yields previous (chunk :: chunks) (first ++ tokens) (found ++ diagnostics)

/-! ## Lexemes by their first character -/

theorem isBlank_iff {c : Char} : IsBlank c ↔ Piece.isGap c := by
  simp [IsBlank, Piece.isGap, or_assoc]

theorem isLetter_iff {c : Char} : IsLetter c ↔ Piece.isLetter c := by
  have hletter : Piece.isLetter c =
      (decide ('A' ≤ c ∧ c ≤ 'Z') || (decide ('a' ≤ c) && decide (c ≤ 'z'))) := rfl
  simp only [hletter, IsLetter, Bool.or_eq_true, Bool.and_eq_true, decide_eq_true_eq]

/-- How a lexeme reads, its first character tells. -/
theorem WellFormed.head {text : List Char} {reading : Reading} (h : WellFormed text reading) :
    ∃ c rest, text = c :: rest ∧
      ((reading = .gap ∧ Piece.isGap c ∧ ∀ d ∈ rest, Piece.isGap d) ∨
        (reading = .word ∧ Piece.isLetter c ∧ ∀ d ∈ rest, Piece.isLetter d) ∨
        ∃ kind, Sign text kind ∧ reading = .operator kind ∧ Piece.isGap c = false ∧
          Piece.isLetter c = false) := by
  cases h with
  | gap hlong hall =>
    obtain ⟨c, rest, rfl⟩ := List.exists_cons_of_ne_nil hlong
    obtain ⟨hc, hrest⟩ := List.forall_mem_cons.1 hall
    exact ⟨c, rest, rfl, .inl ⟨rfl, isBlank_iff.1 hc, fun d hd => isBlank_iff.1 (hrest d hd)⟩⟩
  | word hlong hall =>
    obtain ⟨c, rest, rfl⟩ := List.exists_cons_of_ne_nil hlong
    obtain ⟨hc, hrest⟩ := List.forall_mem_cons.1 hall
    exact ⟨c, rest, rfl,
      .inr (.inl ⟨rfl, isLetter_iff.1 hc, fun d hd => isLetter_iff.1 (hrest d hd)⟩)⟩
  | operator hsign =>
    cases hsign <;> exact ⟨_, _, rfl, .inr (.inr ⟨_, by constructor, rfl, by decide, by decide⟩)⟩

variable {c : Char} {rest text : List Char} {reading : Reading}

/-- A lexeme with which a text begins that begins with a blank. -/
theorem WellFormed.of_gap (h : WellFormed text reading) (hstart : text <+: c :: rest)
    (hc : Piece.isGap c) : reading = .gap ∧ text <+: c :: rest.takeWhile Piece.isGap := by
  obtain ⟨d, tail, rfl, hcases⟩ := h.head
  obtain ⟨rfl, after, rfl⟩ := List.cons_prefix_cons.1 hstart
  rcases hcases with ⟨hreading, -, htail⟩ | ⟨-, hletter, -⟩ | ⟨kind, -, -, hgap, -⟩
  · refine ⟨hreading, ?_⟩
    rw [List.takeWhile_append_of_pos htail]
    exact List.prefix_append _ _
  · rw [Lexeme.isGap_of_isLetter hletter] at hc
    cases hc
  · rw [hgap] at hc
    cases hc

/-- A lexeme with which a text begins that begins with a letter. -/
theorem WellFormed.of_letter (h : WellFormed text reading) (hstart : text <+: c :: rest)
    (hc : Piece.isLetter c) : reading = .word ∧ text <+: c :: rest.takeWhile Piece.isLetter := by
  obtain ⟨d, tail, rfl, hcases⟩ := h.head
  obtain ⟨rfl, after, rfl⟩ := List.cons_prefix_cons.1 hstart
  rcases hcases with ⟨-, hgap, -⟩ | ⟨hreading, -, htail⟩ | ⟨kind, -, -, -, hletter⟩
  · rw [Lexeme.isGap_of_isLetter hc] at hgap
    cases hgap
  · refine ⟨hreading, ?_⟩
    rw [List.takeWhile_append_of_pos htail]
    exact List.prefix_append _ _
  · rw [hletter] at hc
    cases hc

/-- A lexeme with which a text begins that begins with neither. -/
theorem WellFormed.of_sign (h : WellFormed text reading) (hstart : text <+: c :: rest)
    (hgap : Piece.isGap c = false) (hletter : ¬ Piece.isLetter c = true) :
    ∃ kind, Sign text kind ∧ reading = .operator kind := by
  obtain ⟨d, tail, rfl, hcases⟩ := h.head
  obtain ⟨rfl, -⟩ := List.cons_prefix_cons.1 hstart
  rcases hcases with ⟨-, hgap', -⟩ | ⟨-, hletter', -⟩ | ⟨kind, hsign, hreading, -⟩
  · rw [hgap] at hgap'
    cases hgap'
  · exact absurd hletter' hletter
  · exact ⟨kind, hsign, hreading⟩

/-! ## Pieces are chunks -/

theorem sign_of_mem {s : String × Token.Kind} (hs : s ∈ Token.spellings) :
    Sign s.1.toList s.2 := by
  simp only [Token.spellings, List.mem_cons, List.not_mem_nil, or_false] at hs
  rcases hs with rfl | rfl | rfl | rfl | rfl | rfl | rfl | rfl | rfl | rfl <;> constructor

theorem Sign.nonempty {kind : Token.Kind} (h : Sign text kind) : text ≠ [] := by
  cases h <;> exact List.cons_ne_nil _ _

/-- An operator of more than one character is found wherever it stands. -/
theorem Sign.leading {kind : Token.Kind} (h : Sign text kind) :
    text.length ≤ 1 ∨
      ∀ after, Piece.leadingOperator (text ++ after) = some (String.ofList text, kind) := by
  cases h with
  | twinArrow | arrow | applies | binds => exact .inr fun after => rfl
  | equals | ampersand | bar | tilde | opening | closing => exact .inl (by decide)

theorem Sign.exists_leading {kind : Token.Kind} (h : Sign text kind) (after : List Char) :
    (Piece.leadingOperator (text ++ after)).isSome := by
  rw [Piece.leadingOperator, List.find?_isSome]
  refine ⟨(String.ofList text, kind), ?_, by simp⟩
  cases h <;> decide

/-- The operator that is found is the longest one. -/
theorem sign_of_leading {source : List Char} {spelling : String} {kind : Token.Kind}
    (h : Piece.leadingOperator source = some (spelling, kind)) :
    Sign spelling.toList kind ∧ spelling.toList <+: source ∧
      ∀ text' kind', Sign text' kind' → text' <+: source →
        text'.length ≤ spelling.toList.length := by
  have hsign := sign_of_mem (List.mem_of_find?_eq_some h)
  refine ⟨hsign, by simpa using List.find?_some h, fun text' kind' hsign' hstart => ?_⟩
  obtain ⟨after, rfl⟩ := hstart
  rcases hsign'.leading with hshort | hfound
  · have hlong := List.length_pos_iff.2 hsign.nonempty
    exact Nat.le_trans hshort hlong
  · rw [hfound] at h
    cases h
    exact Nat.le_of_eq (congrArg List.length String.toList_ofList.symm)

theorem begins_gap (hc : Piece.isGap c) : Begins (c :: rest) (Piece.cut c rest) := by
  rw [Lexeme.cut_gap hc]
  refine .longest (.gap (List.cons_ne_nil _ _) ?_) ?_ fun text' reading' hform hstart =>
    (hform.of_gap hstart hc).2.length_le
  · exact List.forall_mem_cons.2
      ⟨isBlank_iff.2 hc, fun d hd => isBlank_iff.2 (List.all_eq_true.1 List.all_takeWhile d hd)⟩
  · exact List.cons_prefix_cons.2 ⟨rfl, List.takeWhile_prefix _⟩

theorem begins_word (hc : Piece.isLetter c) : Begins (c :: rest) (Piece.cut c rest) := by
  rw [Lexeme.cut_letter hc]
  refine .longest (.word (List.cons_ne_nil _ _) ?_) ?_ fun text' reading' hform hstart =>
    (hform.of_letter hstart hc).2.length_le
  · exact List.forall_mem_cons.2
      ⟨isLetter_iff.2 hc, fun d hd => isLetter_iff.2 (List.all_eq_true.1 List.all_takeWhile d hd)⟩
  · exact List.cons_prefix_cons.2 ⟨rfl, List.takeWhile_prefix _⟩

section Signs

variable (hgap : Piece.isGap c = false) (hletter : ¬ Piece.isLetter c = true)

include hgap hletter

theorem begins_operator {spelling : String} {kind : Token.Kind}
    (hfound : Piece.leadingOperator (c :: rest) = some (spelling, kind)) :
    Begins (c :: rest) (Piece.cut c rest) := by
  obtain ⟨hsign, hstart, hlongest⟩ := sign_of_leading hfound
  rw [Lexeme.cut_operator hfound]
  refine .longest (.operator hsign) hstart fun text' reading' hform hstart' => ?_
  obtain ⟨kind', hsign', -⟩ := hform.of_sign hstart' hgap hletter
  exact hlongest text' kind' hsign' hstart'

/-- Where no operator is found, no lexeme begins. -/
theorem begins_none (hfound : Piece.leadingOperator (c :: rest) = none)
    (h : WellFormed text reading) : ¬ text <+: c :: rest := by
  intro hstart
  obtain ⟨kind, hsign, -⟩ := h.of_sign hstart hgap hletter
  obtain ⟨after, hafter⟩ := hstart
  have hsome := hsign.exists_leading after
  rw [hafter, hfound] at hsome
  cases hsome

theorem begins_malformed (hfound : Piece.leadingOperator (c :: rest) = none) :
    Begins (c :: rest) (Piece.cut c rest) := by
  have hnone : ∀ text' reading', WellFormed text' reading' → ¬ text' <+: c :: rest :=
    fun _ _ => begins_none hgap hletter hfound
  by_cases hless : c = '<'
  · subst hless
    rw [Lexeme.cut_less hfound]
    split
    next hdash =>
      obtain ⟨after, rfl⟩ := List.head?_eq_some_iff.1 hdash
      exact .malformed hnone (.tail after)
    next hdash => exact .malformed hnone (.angle hdash)
  · rw [Lexeme.cut_other hfound hgap hletter hless]
    split
    next hdash => exact .malformed hnone (hdash ▸ .dash rest)
    next hdash =>
      split
      next hcolon => exact .malformed hnone (hcolon ▸ .colon rest)
      next hcolon => exact .malformed hnone (.unknown rest hless hdash hcolon)

end Signs

/-- **A piece is the chunk that its text begins with.** -/
theorem begins_cut (c : Char) (rest : List Char) : Begins (c :: rest) (Piece.cut c rest) := by
  by_cases hgap : Piece.isGap c
  · exact begins_gap hgap
  by_cases hletter : Piece.isLetter c
  · exact begins_word hletter
  rw [Bool.not_eq_true] at hgap
  cases hfound : Piece.leadingOperator (c :: rest) with
  | some found => exact begins_operator hgap hletter hfound
  | none => exact begins_malformed hgap hletter hfound

/-! ## There is one way of cutting -/

theorem Sign.unique {kind kind' : Token.Kind} (h : Sign text kind) (h' : Sign text kind') :
    kind = kind' := by
  cases h <;> cases h' <;> rfl

theorem WellFormed.unique {reading' : Reading} (h : WellFormed text reading)
    (h' : WellFormed text reading') : reading = reading' := by
  obtain ⟨c, rest, rfl, hcases⟩ := h.head
  have hstart : c :: rest <+: c :: rest := List.prefix_rfl
  rcases hcases with ⟨rfl, hgap, -⟩ | ⟨rfl, hletter, -⟩ | ⟨kind, hsign, rfl, hgap, hletter⟩
  · exact (h'.of_gap hstart hgap).1.symm
  · exact (h'.of_letter hstart hletter).1.symm
  · obtain ⟨kind', hsign', rfl⟩ := h'.of_sign hstart hgap (by simp [hletter])
    rw [hsign.unique hsign']

theorem Begins.nonempty {source : List Char} {piece : Piece} (h : Begins source piece) :
    piece.text ≠ [] := by
  cases h with
  | longest hform =>
    obtain ⟨c, rest, rfl, -⟩ := hform.head
    exact List.cons_ne_nil _ _
  | malformed _ hmalformed => cases hmalformed <;> exact List.cons_ne_nil _ _

theorem Malformed.unique {source text' : List Char} {flaw flaw' : Flaw}
    (h : Malformed source text flaw) (h' : Malformed source text' flaw') :
    text = text' ∧ flaw = flaw' := by
  cases h <;> cases h' <;> first | exact ⟨rfl, rfl⟩ | contradiction

theorem Begins.unique {source : List Char} {piece piece' : Piece} (h : Begins source piece)
    (h' : Begins source piece') : piece = piece' := by
  cases h with
  | longest hform hstart hlongest =>
    cases h' with
    | longest hform' hstart' hlongest' =>
      have htext := (List.prefix_of_prefix_length_le hstart hstart'
        (hlongest' _ _ hform hstart)).eq_of_length
        (Nat.le_antisymm (hlongest' _ _ hform hstart) (hlongest _ _ hform' hstart'))
      subst htext
      rw [hform.unique hform']
    | malformed hnone => exact absurd hstart (hnone _ _ hform)
  | malformed hnone hmalformed =>
    cases h' with
    | longest hform' hstart' => exact absurd hstart' (hnone _ _ hform')
    | malformed _ hmalformed' =>
      obtain ⟨rfl, rfl⟩ := hmalformed.unique hmalformed'
      rfl

/-- A chunk is cut off, and cutting goes on behind it. -/
theorem cutAll_cons {piece : Piece} (hlong : piece.text ≠ [])
    (h : Begins (piece.text ++ rest) piece) (position : Nat) :
    Piece.cutAll position 0 (piece.text ++ rest) =
      (position, piece) :: Piece.cutAll (position + piece.text.length) 0 rest := by
  obtain ⟨text, reading⟩ := piece
  obtain ⟨c, tail, rfl⟩ := List.exists_cons_of_ne_nil hlong
  have hpiece := (begins_cut c (tail ++ rest)).unique h
  change Piece.cutAll position 0 (c :: (tail ++ rest)) = _
  rw [Piece.cutAll, hpiece, Lexeme.cutAll_taken]
  simp only [List.length_cons, Nat.add_sub_cancel, List.drop_left, Nat.add_assoc, Nat.add_comm 1]

/-- **Cutting a text into chunks is cutting it into pieces.** One way, each chunk is the
piece that begins there; the other way, by induction on the length of what is left. -/
theorem cut_iff {position : Nat} {source : List Char} {chunks : List (Nat × Piece)} :
    Cut position source chunks ↔ chunks = Piece.cutAll position 0 source := by
  constructor
  · intro h
    induction h with
    | nil => rfl
    | cons hlong hbegins _ ih => rw [cutAll_cons hlong hbegins, ih]
  · rintro rfl
    induction hlength : source.length using Nat.strongRecOn generalizing position source with
    | ind length ih =>
      cases source with
      | nil => exact .nil position
      | cons c rest =>
        have hbegins := begins_cut c rest
        have hlong := hbegins.nonempty
        obtain ⟨after, hafter⟩ := Lexeme.isPrefix_cut c rest
        rw [← hafter] at hbegins hlength ⊢
        rw [cutAll_cons hlong hbegins]
        refine .cons hlong hbegins (ih after.length ?_ rfl)
        have := List.length_pos_iff.2 hlong
        rw [← hlength, List.length_append]
        omega

theorem Cut.nonempty {position : Nat} {source : List Char} {chunks : List (Nat × Piece)}
    (h : Cut position source chunks) : ∀ chunk ∈ chunks, chunk.2.text ≠ [] := by
  induction h with
  | nil => exact List.forall_mem_nil _
  | cons hlong _ _ ih => exact List.forall_mem_cons.2 ⟨hlong, ih⟩

theorem Cut.source_eq {position : Nat} {source : List Char} {chunks : List (Nat × Piece)}
    (h : Cut position source chunks) : chunks.flatMap (·.2.text) = source := by
  induction h with
  | nil => rfl
  | cons _ _ _ ih => rw [List.flatMap_cons, ih]

/-! ## What chunks contribute -/

theorem keyword_of_mem {p : String × Token.Kind} (hp : p ∈ Token.keywords) : Keyword p.1 p.2 := by
  simp only [Token.keywords, List.mem_cons, List.not_mem_nil, or_false] at hp
  rcases hp with rfl | rfl | rfl | rfl | rfl | rfl <;> constructor

theorem Keyword.kindOfWord {word : String} {kind : Token.Kind} (h : Keyword word kind) :
    word ∈ Token.keywords.map (·.1) ∧ Token.kindOfWord word = kind := by
  cases h <;> decide

/-- A word is a keyword of the kind that it has, or an identifier. -/
theorem keyword_or_identifier (word : String) :
    Keyword word (Token.kindOfWord word) ∨
      (∀ kind, ¬ Keyword word kind) ∧ Token.kindOfWord word = .identifier := by
  by_cases hreserved : word ∈ Token.keywords.map (·.1)
  · obtain ⟨p, hp, rfl⟩ := List.mem_map.1 hreserved
    have hkeyword := keyword_of_mem hp
    exact .inl (hkeyword.kindOfWord.2 ▸ hkeyword)
  · exact .inr ⟨fun kind hkeyword => hreserved hkeyword.kindOfWord.1,
      Lexeme.kindOfWord_unreserved hreserved⟩

section Recalled

variable {previous : String} {recalled : Option (List Lexeme)}
  (hrecalled : recalled = if previous = "" then none else some (Lexeme.ofSource previous))

include hrecalled

/-- A word contributes the one token that it makes, or what `ans` stands for. -/
theorem contributes_word (position : Nat) (word : String) :
    Contributes previous (position, ⟨word.toList, .word⟩)
      (Lexeme.tokens (Lexeme.ofPiece recalled (position, ⟨word.toList, .word⟩)))
      (Lexeme.diagnostics (Lexeme.ofPiece recalled (position, ⟨word.toList, .word⟩))) := by
  have hplain : (word = "ans" → previous = "") →
      Contributes previous (position, ⟨word.toList, .word⟩) [⟨Token.kindOfWord word, word⟩] [] := by
    intro hname
    rcases keyword_or_identifier word with hkeyword | ⟨hnone, hkind⟩
    · exact .keyword position hkeyword
    · rw [hkind]
      exact .name position hnone hname
  by_cases hprevious : previous = ""
  · rw [if_pos hprevious] at hrecalled
    subst hrecalled
    rw [Lexeme.ofPiece, String.ofList_toList]
    exact hplain fun _ => hprevious
  · rw [if_neg hprevious] at hrecalled
    subst hrecalled
    rw [Lexeme.ofPiece, String.ofList_toList]
    by_cases hanswer : word = "ans"
    · subst hanswer
      exact .answer position hprevious
    · rw [Token.answer, if_neg hanswer]
      exact hplain fun h => absurd h hanswer

theorem contributes_piece (chunk : Nat × Piece) :
    Contributes previous chunk (Lexeme.tokens (Lexeme.ofPiece recalled chunk))
      (Lexeme.diagnostics (Lexeme.ofPiece recalled chunk)) := by
  obtain ⟨position, text, reading⟩ := chunk
  cases reading with
  | gap => exact .gap position text
  | operator kind => exact .operator position text kind
  | malformed flaw => exact .malformed position text flaw
  | word =>
    have hword := contributes_word hrecalled position (String.ofList text)
    rwa [String.toList_ofList] at hword

theorem yields_pieces (chunks : List (Nat × Piece)) :
    Yields previous chunks (Lexeme.tokens (chunks.flatMap (Lexeme.ofPiece recalled)))
      (Lexeme.diagnostics (chunks.flatMap (Lexeme.ofPiece recalled))) := by
  induction chunks with
  | nil => exact .nil
  | cons chunk chunks ih =>
    rw [List.flatMap_cons, Lexeme.tokens_append, Lexeme.diagnostics_append]
    exact .cons (contributes_piece hrecalled chunk) ih

end Recalled

end Chunk

/-- **Lexing is exact.** Every text can be cut into chunks, each the longest lexeme that
begins there or, where none begins, a malformed one; and in one way only. The chunks are not
empty, and together they are the text. The tokens and the diagnostics of the text are those
that its chunks contribute one after the other: one token for each lexeme but a gap, what
the previous text has for the word `ans` if there is a previous text, and one diagnostic for
each malformed chunk, at the place where it begins. -/
theorem Lexeme.lexing_is_exact (source previous : String) :
    ∃ chunks, Chunk.Cut 0 source.toList chunks ∧
      (∀ chunks', Chunk.Cut 0 source.toList chunks' → chunks' = chunks) ∧
      (∀ chunk ∈ chunks, chunk.2.text ≠ []) ∧
      chunks.flatMap (·.2.text) = source.toList ∧
      Chunk.Yields previous chunks (tokens (ofSource source previous))
        (diagnostics (ofSource source previous)) := by
  have hcut := Chunk.cut_iff.2 (rfl : Piece.cutAll 0 0 source.toList = _)
  exact ⟨_, hcut, fun chunks' hcut' => Chunk.cut_iff.1 hcut', hcut.nonempty, hcut.source_eq,
    Chunk.yields_pieces rfl _⟩

/-- What broke a sign is gone with it. -/
example : Lexeme.tokens (Lexeme.ofSource "p -q <-> ans" "r") =
      [⟨.identifier, "p"⟩, ⟨.connective .bicond, "<->"⟩, ⟨.identifier, "r"⟩] ∧
    Lexeme.diagnostics (Lexeme.ofSource "p -q <-> ans" "r") = [⟨2, .arrow (some 'q')⟩] := by
  decide

end Propositional
