/-
How texts are cut into tokens. A text can be lexed part by part: what a part
contributes depends on what follows it only where its last word would go on
(`Lexes`). Names, negations, parentheses and connectives between blanks lex to
the tokens they are meant as, so every text put together from them does. The
tokens of any text are operators or made of letters (`written_ofSource`), and the
identifiers among them are names (`named_ofSource`).
-/
import Propositional.Lexeme
import Propositional.Proofs.Interning

namespace Propositional

/-- Names of atoms: words of letters that stand for no operator. -/
structure IsName (name : String) : Prop where
  nonempty : name ≠ ""
  letters : name.toList.all Piece.isLetter
  unreserved : name ∉ Token.keywords.map (·.1)

instance (name : String) : Decidable (IsName name) :=
  decidable_of_iff
    (name ≠ "" ∧ name.toList.all Piece.isLetter ∧ name ∉ Token.keywords.map (·.1))
    ⟨fun h => ⟨h.1, h.2.1, h.2.2⟩, fun h => ⟨h.nonempty, h.letters, h.unreserved⟩⟩

namespace Lexeme

open Piece

/-- Characters that belong to a piece already cut are skipped. -/
theorem cutAll_taken (position taken : Nat) (source : List Char) :
    cutAll position taken source = cutAll (position + taken) 0 (source.drop taken) := by
  induction source generalizing position taken with
  | nil => rw [List.drop_nil, cutAll, cutAll]
  | cons c rest ih =>
    cases taken with
    | zero => rfl
    | succ taken =>
      rw [cutAll, ih, List.drop_succ_cons]
      congr 1
      omega

/-- The lexemes of a text that begins at a position, with `ans` standing for `recalled`. -/
def scanFrom (recalled : Option (List Lexeme)) (position : Nat) (source : List Char) :
    List Lexeme :=
  (cutAll position 0 source).flatMap (ofPiece recalled)

/-- The lexemes of a text that begins at a position; `ans` is a word like any other. -/
def lexFrom (position : Nat) (source : List Char) : List Lexeme :=
  (cutAll position 0 source).flatMap (ofPiece none)

theorem scan_eq (recalled : Option (List Lexeme)) (source : String) :
    scan recalled source = scanFrom recalled 0 source.toList := rfl

theorem ofSource_eq (source : String) : ofSource source = lexFrom 0 source.toList := rfl

/-- One piece is cut off, and lexing goes on behind it. -/
theorem scanFrom_cons (recalled : Option (List Lexeme)) (position : Nat) (c : Char)
    (rest : List Char) :
    scanFrom recalled position (c :: rest) =
      ofPiece recalled (position, cut c rest) ++
        scanFrom recalled (position + 1 + ((cut c rest).text.length - 1))
          (rest.drop ((cut c rest).text.length - 1)) := by
  rw [scanFrom, cutAll, cutAll_taken, List.flatMap_cons, scanFrom]

theorem scanFrom_piece {recalled : Option (List Lexeme)} {position : Nat} {c : Char}
    {text rest : List Char} {reading : Piece.Reading}
    (h : cut c (text ++ rest) = ⟨c :: text, reading⟩) :
    scanFrom recalled position (c :: text ++ rest) =
      ofPiece recalled (position, ⟨c :: text, reading⟩) ++
        scanFrom recalled (position + (c :: text).length) rest := by
  rw [List.cons_append, scanFrom_cons, h]
  simp only [List.length_cons, Nat.add_sub_cancel, List.drop_left, Nat.add_assoc, Nat.add_comm 1]

theorem lexFrom_piece {position : Nat} {c : Char} {text rest : List Char}
    {reading : Piece.Reading} (h : cut c (text ++ rest) = ⟨c :: text, reading⟩) :
    lexFrom position (c :: text ++ rest) =
      ofPiece none (position, ⟨c :: text, reading⟩) ++
        lexFrom (position + (c :: text).length) rest :=
  scanFrom_piece h

/-! ## Blanks, operators and words -/

theorem leadingOperator_none {c : Char} (rest : List Char)
    (h : ∀ s ∈ Token.spellings, s.1.toList.head? ≠ some c) : leadingOperator (c :: rest) = none := by
  have hlong : ∀ s ∈ Token.spellings, s.1.toList ≠ [] := by decide
  rw [leadingOperator, List.find?_eq_none]
  intro s hs hprefix
  obtain ⟨d, ds, hd⟩ := List.exists_cons_of_ne_nil (hlong s hs)
  have hc : d = c := by
    change s.1.toList.isPrefixOf (c :: rest) = true at hprefix
    rw [hd, List.isPrefixOf, Bool.and_eq_true, beq_iff_eq] at hprefix
    exact hprefix.1
  exact h s hs (by rw [hd, List.head?_cons, hc])

/-- No operator begins with a blank or a letter. -/
theorem spellings_head :
    ∀ s ∈ Token.spellings, s.1.toList.head?.all fun c => !isGap c && !isLetter c := by
  decide

theorem isGap_of_isLetter {c : Char} (h : isLetter c) : isGap c = false := by
  rw [isGap, Bool.or_eq_false_iff, Bool.or_eq_false_iff]
  refine ⟨⟨?_, ?_⟩, ?_⟩ <;> rw [decide_eq_false_iff_not] <;> rintro rfl <;> exact absurd h (by decide)

theorem cut_gap {c : Char} (h : isGap c) (rest : List Char) :
    cut c rest = ⟨c :: rest.takeWhile isGap, .gap⟩ := by
  have hnone : leadingOperator (c :: rest) = none := by
    refine leadingOperator_none rest fun s hs hc => ?_
    have hhead := spellings_head s hs
    rw [hc, Option.all_some, h] at hhead
    cases hhead
  unfold cut
  rw [hnone]
  exact if_pos h

theorem cut_letter {c : Char} (h : isLetter c) (rest : List Char) :
    cut c rest = ⟨c :: rest.takeWhile isLetter, .word⟩ := by
  have hnone : leadingOperator (c :: rest) = none := by
    refine leadingOperator_none rest fun s hs hc => ?_
    have hhead := spellings_head s hs
    rw [hc, Option.all_some, h, Bool.not_true, Bool.and_false] at hhead
    cases hhead
  have hgap : ¬ isGap c = true := by simp [isGap_of_isLetter h]
  unfold cut
  rw [hnone]
  exact (if_neg hgap).trans (if_pos h)

theorem cut_operator {c : Char} {rest : List Char} {spelling : String} {kind : Token.Kind}
    (h : leadingOperator (c :: rest) = some (spelling, kind)) :
    cut c rest = ⟨spelling.toList, .operator kind⟩ := by
  unfold cut
  rw [h]

/-- The pieces of a text that begins at a position, but for the gaps. -/
def marks (position : Nat) (source : List Char) : List (Nat × Piece) :=
  (cutAll position 0 source).filter (·.2.reading ≠ .gap)

/-- What gaps contribute nothing to is made of the other pieces. -/
theorem flatMap_marks {α : Type} {f : Nat × Piece → List α}
    (hgap : ∀ position text, f (position, ⟨text, .gap⟩) = []) (position : Nat)
    (source : List Char) :
    (cutAll position 0 source).flatMap f = (marks position source).flatMap f := by
  rw [marks]
  generalize cutAll position 0 source = pieces
  induction pieces with
  | nil => rfl
  | cons placed rest ih =>
    obtain ⟨position, text, reading⟩ := placed
    cases reading with
    | gap =>
      rw [List.flatMap_cons, hgap, ih]
      rfl
    | operator | word | malformed => exact congrArg (_ ++ ·) ih

theorem scanFrom_marks (recalled : Option (List Lexeme)) (position : Nat) (source : List Char) :
    scanFrom recalled position source = (marks position source).flatMap (ofPiece recalled) :=
  flatMap_marks (fun _ _ => rfl) position source

/-- A blank belongs to a gap, whether or not more of them follow. -/
theorem marks_gap {c : Char} (h : isGap c) (position : Nat) (rest : List Char) :
    marks position (c :: rest) = marks (position + 1) rest := by
  have skip : ∀ (position : Nat) (c : Char) (rest : List Char), isGap c →
      marks position (c :: rest) =
        marks (position + 1 + (rest.takeWhile isGap).length)
          (rest.drop (rest.takeWhile isGap).length) := by
    intro position c rest hc
    rw [marks, cutAll, cutAll_taken, cut_gap hc]
    rfl
  rw [skip position c rest h]
  cases rest with
  | nil => rfl
  | cons d rest =>
    by_cases hd : isGap d
    · rw [skip (position + 1) d rest hd, List.takeWhile_cons_of_pos hd]
      simp only [List.length_cons, List.drop_succ_cons, Nat.add_assoc, Nat.add_comm 1]
    · rw [List.takeWhile_cons_of_neg hd]
      rfl

theorem scanFrom_gap (recalled : Option (List Lexeme)) {c : Char} (h : isGap c) (position : Nat)
    (rest : List Char) :
    scanFrom recalled position (c :: rest) = scanFrom recalled (position + 1) rest := by
  rw [scanFrom_marks, scanFrom_marks, marks_gap h]

theorem lexFrom_gap {c : Char} (h : isGap c) (position : Nat) (rest : List Char) :
    lexFrom position (c :: rest) = lexFrom (position + 1) rest :=
  scanFrom_gap none h position rest

theorem scanFrom_operator (recalled : Option (List Lexeme)) {spelling : String}
    {kind : Token.Kind} {rest : List Char}
    (h : leadingOperator (spelling.toList ++ rest) = some (spelling, kind)) (position : Nat)
    (hlong : spelling.toList ≠ []) :
    scanFrom recalled position (spelling.toList ++ rest) =
      .token ⟨kind, spelling⟩ ::
        scanFrom recalled (position + spelling.toList.length) rest := by
  obtain ⟨c, text, hc⟩ := List.exists_cons_of_ne_nil hlong
  have hcut : cut c (text ++ rest) = ⟨c :: text, .operator kind⟩ := by
    rw [hc, List.cons_append] at h
    rw [cut_operator h, hc]
  rw [hc, scanFrom_piece hcut, ofPiece, ← hc, String.ofList_toList, List.singleton_append]

theorem lexFrom_operator {spelling : String} {kind : Token.Kind} {rest : List Char}
    (h : leadingOperator (spelling.toList ++ rest) = some (spelling, kind)) (position : Nat)
    (hlong : spelling.toList ≠ []) :
    lexFrom position (spelling.toList ++ rest) =
      .token ⟨kind, spelling⟩ :: lexFrom (position + spelling.toList.length) rest :=
  scanFrom_operator none h position hlong

theorem kindOfWord_unreserved {word : String} (h : word ∉ Token.keywords.map (·.1)) :
    Token.kindOfWord word = .identifier := by
  have hnone : Token.keywords.lookup word = none := by
    rw [List.lookup_eq_none_iff]
    intro p hp
    rw [bne_iff_ne]
    rintro rfl
    exact h (List.mem_map_of_mem hp)
  rw [Token.kindOfWord, hnone, Option.getD_none]

theorem kindOfWord_name {name : String} (h : IsName name) : Token.kindOfWord name = .identifier :=
  kindOfWord_unreserved h.unreserved

/-! ## Texts of formulas, part by part -/

/-- What may follow a formula in a text: nothing, a blank or a closing parenthesis. -/
def Closes (rest : List Char) : Prop := ∀ c ∈ rest.head?, c = ' ' ∨ c = ')'

/-- The characters lex to the tokens wherever they may stand as a formula. -/
def Lexes (source : List Char) (tokens : List Token) : Prop :=
  ∀ position rest, Closes rest →
    lexFrom position (source ++ rest) =
      tokens.map .token ++ lexFrom (position + source.length) rest

theorem Lexes.ofSource {source : String} {tokens : List Token}
    (h : Lexes source.toList tokens) : Lexeme.ofSource source = tokens.map .token := by
  have hall := h 0 [] (by simp [Closes])
  rw [List.append_nil] at hall
  rw [ofSource_eq, hall]
  exact List.append_nil _

theorem Lexes.word {word : String} (hlong : word ≠ "") (hletters : word.toList.all isLetter) :
    Lexes word.toList [⟨Token.kindOfWord word, word⟩] := by
  intro position rest hrest
  rw [Ne, ← String.toList_eq_nil_iff] at hlong
  obtain ⟨c, text, hc⟩ := List.exists_cons_of_ne_nil hlong
  have hall : ∀ d ∈ c :: text, isLetter d := hc ▸ List.all_eq_true.1 hletters
  have hword : (text ++ rest).takeWhile isLetter = text := by
    rw [List.takeWhile_append_of_pos fun d hd => hall d (List.mem_cons_of_mem _ hd)]
    cases rest with
    | nil => simp
    | cons d rest =>
      have hd : ¬ isLetter d = true := by
        rcases hrest d rfl with rfl | rfl <;> decide
      rw [List.takeWhile_cons_of_neg hd, List.append_nil]
  have hcut : cut c (text ++ rest) = ⟨c :: text, .word⟩ := by
    rw [cut_letter (hall c List.mem_cons_self), hword]
  rw [hc, lexFrom_piece hcut, ofPiece, ← hc, String.ofList_toList]
  rfl

theorem Lexes.name {name : String} (h : IsName name) :
    Lexes name.toList [⟨.identifier, name⟩] := by
  have hword := Lexes.word h.nonempty h.letters
  rwa [kindOfWord_name h] at hword

theorem Lexes.negation {source : List Char} {tokens : List Token} (h : Lexes source tokens) :
    Lexes ('~' :: source) (⟨.negation, "~"⟩ :: tokens) := by
  intro position rest hrest
  have hsign : leadingOperator ("~".toList ++ (source ++ rest)) = some ("~", .negation) := rfl
  have hlex := lexFrom_operator hsign position (by decide)
  rw [h _ rest hrest] at hlex
  rw [List.length_cons, Nat.add_comm source.length, ← Nat.add_assoc]
  exact hlex

theorem Lexes.parens {source : List Char} {tokens : List Token} (h : Lexes source tokens) :
    Lexes ('(' :: source ++ [')']) (⟨.opening, "("⟩ :: tokens ++ [⟨.closing, ")"⟩]) := by
  intro position rest hrest
  have hopen : leadingOperator ("(".toList ++ (source ++ ')' :: rest)) = some ("(", .opening) := rfl
  have hclose : leadingOperator (")".toList ++ rest) = some (")", .closing) := rfl
  have hlex := lexFrom_operator hopen position (by decide)
  have hlast := lexFrom_operator hclose (position + 1 + source.length) (by decide)
  rw [h _ (')' :: rest) (by simp [Closes])] at hlex
  have hlen : position + ('(' :: source ++ [')']).length = position + 1 + source.length + 1 := by
    simp only [List.length_append, List.length_cons, List.length_nil]
    omega
  rw [hlen]
  simp only [List.map_append, List.map_cons, List.map_nil, List.append_assoc, List.cons_append,
    List.nil_append]
  exact hlex.trans (congrArg (_ :: tokens.map Lexeme.token ++ ·) hlast)

/-- Two parts with a sign between blanks. -/
theorem Lexes.joined {left right : List Char} {ls rs : List Token} {spelling : String}
    {kind : Token.Kind} (hl : Lexes left ls)
    (hsign : ∀ rest, leadingOperator (spelling.toList ++ ' ' :: rest) = some (spelling, kind))
    (hlong : spelling.toList ≠ []) (hr : Lexes right rs) :
    Lexes (left ++ [' '] ++ spelling.toList ++ [' '] ++ right)
      (ls ++ ⟨kind, spelling⟩ :: rs) := by
  intro position rest hrest
  have hblank : isGap ' ' := by decide
  have hlen : position + (left ++ [' '] ++ spelling.toList ++ [' '] ++ right).length =
      position + left.length + 1 + spelling.toList.length + 1 + right.length := by
    simp only [List.length_append, List.length_cons, List.length_nil]
    omega
  rw [hlen]
  simp only [List.append_assoc, List.cons_append, List.nil_append, List.map_append, List.map_cons]
  rw [hl _ _ (by simp [Closes]), lexFrom_gap hblank, lexFrom_operator (hsign _) _ hlong,
    lexFrom_gap hblank, hr _ rest hrest]

/-- Two formulas with a connective between blanks. -/
theorem Lexes.binary {left right : List Char} {ls rs : List Token} (hl : Lexes left ls)
    (op : Connective) (hr : Lexes right rs) :
    Lexes (left ++ [' '] ++ op.symbol.toList ++ [' '] ++ right)
      (ls ++ ⟨.connective op, op.symbol⟩ :: rs) := by
  have hsign : ∀ rest, leadingOperator (op.symbol.toList ++ ' ' :: rest) =
      some (op.symbol, .connective op) := by
    intro rest
    cases op <;> rfl
  have hlong : op.symbol.toList ≠ [] := by
    cases op <;> decide
  exact hl.joined hsign hlong hr

/-! ## Identifiers are names -/

/-- The four ways in which a piece reads. -/
theorem cut_cases (c : Char) (rest : List Char) :
    (∃ s ∈ Token.spellings, cut c rest = ⟨s.1.toList, .operator s.2⟩) ∨
      (∃ text, cut c rest = ⟨text, .gap⟩) ∨
      (isLetter c ∧ cut c rest = ⟨c :: rest.takeWhile isLetter, .word⟩) ∨
      ∃ text flaw, cut c rest = ⟨text, .malformed flaw⟩ := by
  by_cases hgap : isGap c
  · exact .inr (.inl ⟨_, cut_gap hgap rest⟩)
  by_cases hletter : isLetter c
  · exact .inr (.inr (.inl ⟨hletter, cut_letter hletter rest⟩))
  unfold cut
  split
  · next spelling kind hfound =>
    exact .inl ⟨(spelling, kind), List.mem_of_find?_eq_some hfound, rfl⟩
  · refine .inr (.inr (.inr ?_))
    rw [if_neg hgap, if_neg hletter]
    repeat' split
    all_goals exact ⟨_, _, rfl⟩

theorem unreserved_of_kindOfWord {word : String} (h : Token.kindOfWord word = .identifier) :
    word ∉ Token.keywords.map (·.1) := by
  have hkinds : ∀ p ∈ Token.keywords, Token.kindOfWord p.1 ≠ .identifier := by decide
  intro hword
  obtain ⟨p, hp, rfl⟩ := List.mem_map.1 hword
  exact hkinds p hp h

/-- How a token of a text is written: as an operator, or in letters. -/
inductive Written : Token → Prop
  | operator {s : String × Token.Kind} : s ∈ Token.spellings → Written ⟨s.2, s.1⟩
  | word {word : String} : word ≠ "" → word.toList.all isLetter →
      Written ⟨Token.kindOfWord word, word⟩

section Written

variable {recalled : Option (List Lexeme)}
  (hr : ∀ lexemes ∈ recalled, ∀ t, token t ∈ lexemes → Written t)

include hr

theorem written_ofPiece (position : Nat) (c : Char) (rest : List Char) {t : Token}
    (ht : token t ∈ ofPiece recalled (position, cut c rest)) : Written t := by
  rcases cut_cases c rest with ⟨s, hs, hcut⟩ | ⟨text, hcut⟩ | ⟨hc, hcut⟩ | ⟨text, flaw, hcut⟩ <;>
    rw [hcut] at ht
  · cases List.mem_singleton.1 ht
    rw [String.ofList_toList]
    exact .operator hs
  · cases ht
  · have hword : Written ⟨Token.kindOfWord (String.ofList (c :: rest.takeWhile isLetter)),
        String.ofList (c :: rest.takeWhile isLetter)⟩ := by
      refine .word ?_ ?_
      · rw [Ne, ← String.toList_eq_nil_iff, String.toList_ofList]
        exact List.cons_ne_nil _ _
      · rw [String.toList_ofList, List.all_cons, hc, List.all_takeWhile, Bool.and_self]
    cases recalled with
    | none =>
      cases List.mem_singleton.1 ht
      exact hword
    | some lexemes =>
      simp only [ofPiece] at ht
      split at ht
      · exact hr lexemes rfl t ht
      · cases List.mem_singleton.1 ht
        exact hword
  · cases List.mem_singleton.1 ht

theorem written_scan (source : String) {t : Token} (ht : token t ∈ scan recalled source) :
    Written t := by
  have hall : ∀ (source : List Char) (position taken : Nat),
      token t ∈ (cutAll position taken source).flatMap (ofPiece recalled) → Written t := by
    intro source
    induction source with
    | nil =>
      intro position taken ht
      rw [cutAll] at ht
      cases ht
    | cons c rest ih =>
      intro position taken ht
      cases taken with
      | succ taken => exact ih (position + 1) taken ht
      | zero =>
        rw [cutAll, List.flatMap_cons, List.mem_append] at ht
        rcases ht with ht | ht
        · exact written_ofPiece hr position c rest ht
        · exact ih _ _ ht
  exact hall source.toList 0 0 ht

end Written

/-- The tokens of a text are written in this way, those of a previous text included. -/
theorem written_ofSource {source previous : String} {t : Token}
    (ht : token t ∈ ofSource source previous) : Written t := by
  refine written_scan (fun lexemes hrecalled u hu => ?_) source ht
  split at hrecalled
  · cases hrecalled
  · cases hrecalled
    exact written_scan (fun _ h => by cases h) previous hu

/-- The identifiers among some lexemes are names. -/
def Named (lexemes : List Lexeme) : Prop :=
  ∀ t, token t ∈ lexemes → t.kind = .identifier → IsName t.text

/-- The identifiers in a text are names, those of a previous text included. -/
theorem named_ofSource (source previous : String) : Named (ofSource source previous) := by
  have hkinds : ∀ s ∈ Token.spellings, s.2 ≠ .identifier := by decide
  intro t ht hkind
  cases written_ofSource ht with
  | operator hs => exact absurd hkind (hkinds _ hs)
  | word hlong hletters => exact ⟨hlong, hletters, unreserved_of_kindOfWord hkind⟩

theorem isName_identifier {source previous name : String}
    (h : name ∈ Token.identifiers (tokens (ofSource source previous))) : IsName name := by
  obtain ⟨t, ht, hidentifier⟩ := List.mem_filterMap.1 h
  split at hidentifier
  · next hkind =>
    cases hidentifier
    obtain ⟨lexeme, hlexeme, htoken⟩ := List.mem_filterMap.1 ht
    cases lexeme with
    | malformed d => cases htoken
    | token t' =>
      cases htoken
      exact named_ofSource source previous t hlexeme hkind
  · cases hidentifier

/-- The names of the tokens of a text are names. -/
theorem isName_afterTokens {source previous name : String}
    (h : name ∈ (Symbols.empty.afterTokens (tokens (ofSource source previous))).names) :
    IsName name := by
  rw [Symbols.afterTokens, Symbols.mem_internAll] at h
  rcases h with h | h
  · cases h
  · exact isName_identifier h

end Lexeme

end Propositional
