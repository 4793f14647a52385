/-
Texts joined by a sign between blanks. Up to a blank a text is cut in one way,
whatever stands behind it; only a malformed piece that the text breaks off there takes
the blank along (`cut_before_gap`). So the pieces on both sides of a blank are those of two
texts (`marks_before_gap`), and a text with a sign between blanks has the tokens of its parts
with the sign between them, and malformed pieces where the first part, with the blank
after it, or the second has them (`ofSource_joined`).
-/
import Propositional.Proofs.Lexing

namespace Propositional

/-- Whether a sign was begun that the text breaks off. -/
def Flaw.isOpen : Flaw → Bool
  | twinArrow found | arrow found | binder found => found.isNone
  | unknown _ => false

/-- The flaw once the text goes on with `w`. -/
def Flaw.closedBy (w : Char) : Flaw → Flaw
  | twinArrow none => twinArrow (some w)
  | arrow none => arrow (some w)
  | binder none => binder (some w)
  | flaw => flaw

theorem Flaw.closedBy_of_closed {w : Char} {flaw : Flaw} (h : flaw.isOpen = false) :
    flaw.closedBy w = flaw := by
  obtain ⟨_ | _⟩ | ⟨_ | _⟩ | ⟨_ | _⟩ | _ := flaw <;> first | rfl | cases h

/-- Whether the text breaks the piece off. -/
def Piece.isOpen (piece : Piece) : Bool :=
  match piece.reading with
  | .malformed flaw => flaw.isOpen
  | _ => false

/-- The piece once the text goes on with `w`: it takes `w` along if it was broken off. -/
def Piece.closedBy (w : Char) (piece : Piece) : Piece :=
  match piece.reading with
  | .malformed flaw =>
    if flaw.isOpen then ⟨piece.text ++ [w], .malformed (flaw.closedBy w)⟩ else piece
  | _ => piece

theorem Piece.closedBy_of_closed {w : Char} {piece : Piece} (h : piece.isOpen = false) :
    piece.closedBy w = piece := by
  obtain ⟨text, reading⟩ := piece
  cases reading with
  | gap | operator | word => rfl
  | malformed flaw => exact if_neg (by simpa [isOpen] using h)

end Propositional

namespace Propositional.Lexeme

open Piece

/-! ## Cutting before a blank -/

theorem isLetter_of_isGap {w : Char} (h : isGap w) : isLetter w = false := by
  cases hletter : isLetter w with
  | false => rfl
  | true => simp [isGap_of_isLetter hletter] at h

theorem isPrefixOf_gap {w : Char} {spelling : List Char} (h : w ∉ spelling) (a b : List Char) :
    spelling.isPrefixOf (a ++ w :: b) = spelling.isPrefixOf a := by
  induction spelling generalizing a with
  | nil => simp
  | cons d rest ih =>
    simp only [List.mem_cons, not_or] at h
    cases a with
    | nil => simp [List.isPrefixOf, Ne.symm h.1]
    | cons e a => simp [List.isPrefixOf, ih h.2]

theorem leadingOperator_gap {w : Char} (hw : isGap w) (a b : List Char) :
    leadingOperator (a ++ w :: b) = leadingOperator a := by
  have hsigns : ∀ s ∈ Token.spellings, s.1.toList.all fun c => !isGap c := by decide
  have hsame : ∀ s ∈ Token.spellings,
      s.1.toList.isPrefixOf (a ++ w :: b) = s.1.toList.isPrefixOf a := by
    intro s hs
    refine isPrefixOf_gap (fun hmem => ?_) a b
    have := List.all_eq_true.1 (hsigns s hs) w hmem
    simp [hw] at this
  simp only [leadingOperator]
  generalize Token.spellings = spellings at hsame
  induction spellings with
  | nil => rfl
  | cons s rest ih =>
    rw [List.find?_cons, List.find?_cons, hsame s List.mem_cons_self,
      ih fun s hs => hsame s (List.mem_cons_of_mem _ hs)]

theorem isPrefix_cut (c : Char) (rest : List Char) : (cut c rest).text <+: c :: rest := by
  have hbroken : ∀ begun flaw after, begun ++ after = c :: rest →
      (broken begun flaw after).text <+: c :: rest := by
    intro begun flaw after h
    cases after <;> simp [broken, ← h]
  unfold cut
  split
  · next spelling kind h =>
    have hfound := List.find?_some h
    simpa using hfound
  · repeat' split
    · simp [List.takeWhile_prefix]
    · simp [List.takeWhile_prefix]
    · exact hbroken _ _ _ (by simp_all)
    · exact hbroken _ _ _ (by simp_all)
    · exact hbroken _ _ _ (by simp_all)
    · exact hbroken _ _ _ (by simp_all)
    · simp

/-- The piece before a blank is cut off in one way, whatever stands behind the blank; or it
is one that the text breaks off, and takes the blank along. -/
def CutBeforeGap (w c : Char) (a : List Char) : Prop :=
  ((cut c a).isOpen = false ∧ ∀ b, cut c (a ++ w :: b) = cut c a) ∨
    ∃ flaw : Flaw, flaw.isOpen ∧ cut c a = ⟨c :: a, .malformed flaw⟩ ∧
      ∀ b, cut c (a ++ w :: b) = ⟨c :: (a ++ [w]), .malformed (flaw.closedBy w)⟩

variable {w c : Char} {a : List Char}

theorem cutBeforeGap_of_broken {begun a' : List Char} {flaw : Option Char → Flaw}
    (hopen : ∀ found, (flaw found).isOpen = found.isNone)
    (hclosed : (flaw none).closedBy w = flaw (some w))
    (htext : begun ++ a' = c :: a) (h : cut c a = broken begun flaw a')
    (hgap : ∀ b, cut c (a ++ w :: b) = broken begun flaw (a' ++ w :: b)) : CutBeforeGap w c a := by
  cases a' with
  | cons d a' =>
    refine .inl ⟨?_, fun b => (hgap b).trans h.symm⟩
    rw [h]
    exact hopen (some d)
  | nil =>
    rw [List.append_nil] at htext
    subst htext
    refine .inr ⟨flaw none, hopen none, h.trans ?_, fun b => ?_⟩
    · simp [broken]
    · rw [hclosed]
      exact hgap b

theorem cut_less {rest : List Char} (h : leadingOperator ('<' :: rest) = none) :
    cut '<' rest =
      if rest.head? = some '-' then broken ['<', '-'] .twinArrow rest.tail
      else broken ['<'] .twinArrow rest := by
  unfold cut
  rw [h]
  cases rest with
  | nil => rfl
  | cons d rest =>
    by_cases hd : d = '-'
    · subst hd
      rfl
    · simp only [List.head?_cons, Option.some.injEq, if_neg hd]
      split <;> simp_all [isGap, isLetter]

theorem cut_other {rest : List Char} (h : leadingOperator (c :: rest) = none)
    (hgap : isGap c = false) (hletter : ¬ isLetter c = true) (hc : c ≠ '<') :
    cut c rest =
      if c = '-' then broken ['-'] .arrow rest
      else if c = ':' then broken [':'] .binder rest
      else ⟨[c], .malformed (.unknown c)⟩ := by
  unfold cut
  rw [h]
  simp only [hgap, hletter, hc, if_false, Bool.false_eq_true]

theorem cut_before_gap (hw : isGap w) (hc : isGap c = false) (a : List Char) :
    CutBeforeGap w c a := by
  by_cases hletter : isLetter c
  · refine .inl ⟨by rw [cut_letter hletter]; rfl, fun b => ?_⟩
    have hstop : ¬ isLetter w = true := by simp [isLetter_of_isGap hw]
    have hword : (a ++ w :: b).takeWhile isLetter = a.takeWhile isLetter := by
      rw [List.takeWhile_append, List.takeWhile_cons_of_neg hstop, List.append_nil]
      split
      · next hall => rw [(List.takeWhile_prefix isLetter).eq_of_length hall]
      · rfl
    rw [cut_letter hletter, cut_letter hletter, hword]
  have hoperator : ∀ b, leadingOperator (c :: (a ++ w :: b)) = leadingOperator (c :: a) :=
    fun b => leadingOperator_gap hw (c :: a) b
  cases hfound : leadingOperator (c :: a) with
  | some found =>
    refine .inl ⟨by rw [cut_operator hfound]; rfl, fun b => ?_⟩
    rw [cut_operator hfound, cut_operator ((hoperator b).trans hfound)]
  | none =>
    have hnone := fun b => (hoperator b).trans hfound
    by_cases hless : c = '<'
    · subst hless
      have hblank : w ≠ '-' := by
        rintro rfl
        exact absurd hw (by decide)
      cases a with
      | nil =>
        refine cutBeforeGap_of_broken (fun _ => rfl) rfl (List.append_nil ['<']) (cut_less hfound)
          fun b => ?_
        rw [cut_less (hnone b)]
        simp [hblank]
      | cons d a =>
        by_cases hd : d = '-'
        · subst hd
          have htext : ['<', '-'] ++ a = '<' :: '-' :: a := rfl
          exact cutBeforeGap_of_broken (fun _ => rfl) rfl htext (cut_less hfound)
            fun b => cut_less (hnone b)
        · have htext : ['<'] ++ d :: a = '<' :: d :: a := rfl
          have hhead : ∀ rest, (d :: rest).head? ≠ some '-' := by simp [hd]
          exact cutBeforeGap_of_broken (fun _ => rfl) rfl htext
            ((cut_less hfound).trans (if_neg (hhead a)))
            fun b => (cut_less (hnone b)).trans (if_neg (hhead _))
    · have hcut := cut_other hfound hc hletter hless
      have hcuts := fun b => cut_other (hnone b) hc hletter hless
      by_cases harrow : c = '-'
      · subst harrow
        have htext : ['-'] ++ a = '-' :: a := rfl
        exact cutBeforeGap_of_broken (fun _ => rfl) rfl htext hcut hcuts
      · by_cases hbinder : c = ':'
        · subst hbinder
          have htext : [':'] ++ a = ':' :: a := rfl
          exact cutBeforeGap_of_broken (fun _ => rfl) rfl htext hcut hcuts
        · rw [if_neg harrow, if_neg hbinder] at hcut
          refine .inl ⟨by rw [hcut]; rfl, fun b => ?_⟩
          rw [hcut, hcuts, if_neg harrow, if_neg hbinder]

/-! ## Lexing before a blank -/

/-- **A blank separates.** The pieces before it are those of the text that ends there, but that
one which is broken off there takes the blank along; and those behind it are those of the text
that begins there. By induction on the text before the blank, of which some characters may
belong to a piece already cut. -/
theorem marks_before_gap (hw : isGap w) (position : Nat) (a b : List Char) :
    marks position (a ++ w :: b) =
      (marks position a).map (Prod.map id (Piece.closedBy w)) ++
        marks (position + a.length + 1) b := by
  have halves : ∀ (a : List Char) (position taken : Nat), taken ≤ a.length →
      (cutAll position taken (a ++ w :: b)).filter (·.2.reading ≠ .gap) =
        ((cutAll position taken a).filter (·.2.reading ≠ .gap)).map
            (Prod.map id (Piece.closedBy w)) ++
          marks (position + a.length + 1) b := by
    intro a
    induction a with
    | nil =>
      intro position taken htaken
      obtain rfl : taken = 0 := Nat.le_zero.1 htaken
      exact marks_gap hw position b
    | cons c a ih =>
      intro position taken htaken
      have hposition : position + (c :: a).length + 1 = position + 1 + a.length + 1 := by
        simp only [List.length_cons]
        omega
      rw [hposition]
      cases taken with
      | succ taken => exact ih (position + 1) taken (Nat.le_of_succ_le_succ htaken)
      | zero =>
        -- a gap may go on behind the blank, so of a gap only its first character is passed over
        by_cases hc : isGap c
        · have hwhole := marks_gap hc position (a ++ w :: b)
          have hfirst := marks_gap hc position a
          rw [marks, marks] at hwhole hfirst
          rw [List.cons_append, hwhole, hfirst]
          exact ih (position + 1) 0 (Nat.zero_le _)
        rcases cut_before_gap hw (Bool.eq_false_iff.2 hc) a with
          ⟨hclosed, hcut⟩ | ⟨flaw, hopen, hcut, hcuts⟩
        · have htaken : (cut c a).text.length - 1 ≤ a.length := by
            have := (isPrefix_cut c a).length_le
            simp only [List.length_cons] at this
            omega
          have hrest := ih (position + 1) _ htaken
          rw [List.cons_append, cutAll, cutAll, hcut, List.filter_cons, List.filter_cons]
          split
          · rw [hrest, List.map_cons, Prod.map_apply, closedBy_of_closed hclosed]
            rfl
          · exact hrest
        · have hnothing : cutAll (position + 1) ((c :: a).length - 1) a = [] := by
            rw [cutAll_taken, List.length_cons, Nat.add_sub_cancel, List.drop_length, cutAll]
          have hbehind : cutAll (position + 1) ((c :: (a ++ [w])).length - 1) (a ++ w :: b) =
              cutAll (position + 1 + a.length + 1) 0 b := by
            rw [cutAll_taken]
            simp [Nat.add_assoc]
          rw [List.cons_append, cutAll, cutAll, hcut, hcuts, hnothing, hbehind]
          simp [marks, closedBy, hopen]
  exact halves a position 0 (Nat.zero_le _)

variable (recalled : Option (List Lexeme))

theorem tokens_closedBy (placed : Nat × Piece) :
    tokens (ofPiece recalled (Prod.map id (Piece.closedBy w) placed)) =
      tokens (ofPiece recalled placed) := by
  obtain ⟨position, text, reading⟩ := placed
  cases reading with
  | gap | operator | word => rfl
  | malformed flaw =>
    simp only [Prod.map, Piece.closedBy]
    split <;> rfl

/-- What stands before a blank is lexed in one way, whatever stands behind it; with or without
the blank it has the same tokens. -/
theorem scanFrom_before_gap (hw : isGap w) (position : Nat) (a : List Char) :
    ∃ before, tokens before = tokens (scanFrom recalled position a) ∧
      ∀ b, scanFrom recalled position (a ++ w :: b) =
        before ++ scanFrom recalled (position + a.length + 1) b := by
  refine ⟨((marks position a).map (Prod.map id (Piece.closedBy w))).flatMap (ofPiece recalled),
    ?_, fun b => ?_⟩
  · rw [scanFrom_marks]
    induction marks position a with
    | nil => rfl
    | cons placed rest ih =>
      rw [List.map_cons, List.flatMap_cons, List.flatMap_cons, tokens_append, tokens_append, ih,
        tokens_closedBy]
  · rw [scanFrom_marks, marks_before_gap hw, List.flatMap_append, scanFrom_marks]

/-! ## Lexing elsewhere -/

theorem ofPiece_moved (position position' : Nat) (piece : Piece) :
    tokens (ofPiece recalled (position, piece)) = tokens (ofPiece recalled (position', piece)) ∧
      (diagnostics (ofPiece recalled (position, piece))).map (·.flaw) =
        (diagnostics (ofPiece recalled (position', piece))).map (·.flaw) := by
  obtain ⟨text, reading⟩ := piece
  cases reading <;> exact ⟨rfl, rfl⟩

theorem cutAll_moved (shift position taken : Nat) (source : List Char) :
    cutAll (position + shift) taken source =
      (cutAll position taken source).map (Prod.map (· + shift) id) := by
  induction source generalizing position taken with
  | nil => rfl
  | cons c rest ih =>
    have hposition : position + shift + 1 = position + 1 + shift := Nat.add_right_comm _ _ _
    cases taken with
    | succ taken => rw [cutAll, cutAll, hposition, ih]
    | zero =>
      rw [cutAll, cutAll, hposition, ih]
      rfl

theorem scanFrom_moved (position position' : Nat) (source : List Char) :
    tokens (scanFrom recalled position source) = tokens (scanFrom recalled position' source) ∧
      (diagnostics (scanFrom recalled position source)).map (·.flaw) =
        (diagnostics (scanFrom recalled position' source)).map (·.flaw) := by
  have hfrom : ∀ position, scanFrom recalled position source =
      ((cutAll 0 0 source).map (Prod.map (· + position) id)).flatMap (ofPiece recalled) := by
    intro position
    rw [scanFrom, ← cutAll_moved, Nat.zero_add]
  rw [hfrom, hfrom]
  induction cutAll 0 0 source with
  | nil => exact ⟨rfl, rfl⟩
  | cons placed rest ih =>
    have hpiece := ofPiece_moved recalled (placed.1 + position) (placed.1 + position') placed.2
    simp only [List.map_cons, List.flatMap_cons, tokens_append, diagnostics_append, List.map_append,
      ih, Prod.map, id_eq, hpiece, and_self]

theorem ofPiece_unrecalled {placed : Nat × Piece}
    (h : ⟨.identifier, Token.answer⟩ ∉ tokens (ofPiece none placed)) :
    ofPiece recalled placed = ofPiece none placed := by
  obtain ⟨position, text, reading⟩ := placed
  cases reading with
  | gap | operator | malformed => rfl
  | word =>
    cases recalled with
    | none => rfl
    | some lexemes =>
      have hword : String.ofList text ≠ Token.answer := by
        intro hword
        refine h ?_
        rw [ofPiece, hword]
        exact List.mem_singleton_self _
      simp only [ofPiece, if_neg hword]

theorem scanFrom_unrecalled {position : Nat} {source : List Char}
    (h : ⟨.identifier, Token.answer⟩ ∉ tokens (scanFrom none position source)) :
    scanFrom recalled position source = scanFrom none position source := by
  rw [scanFrom, scanFrom] at *
  generalize cutAll position 0 source = pieces at *
  induction pieces with
  | nil => rfl
  | cons placed rest ih =>
    simp only [List.flatMap_cons, tokens_append, List.mem_append, not_or] at h
    rw [List.flatMap_cons, List.flatMap_cons, ofPiece_unrecalled recalled h.1, ih h.2]

/-- A text without malformed pieces and without the word `ans`. -/
structure IsPlain (source : String) : Prop where
  clean : diagnostics (ofSource source) = []
  unrecalled : ⟨.identifier, Token.answer⟩ ∉ tokens (ofSource source)

instance (source : String) : Decidable (IsPlain source) :=
  decidable_of_iff
    (diagnostics (ofSource source) = [] ∧
      ⟨.identifier, Token.answer⟩ ∉ tokens (ofSource source))
    ⟨fun h => ⟨h.1, h.2⟩, fun h => ⟨h.clean, h.unrecalled⟩⟩

theorem IsPlain.scanFrom {source : String} (h : IsPlain source) (position : Nat) :
    tokens (scanFrom recalled position source.toList) = tokens (ofSource source) ∧
      diagnostics (Lexeme.scanFrom recalled position source.toList) = [] := by
  have hsource : Lexeme.scanFrom recalled 0 source.toList = ofSource source :=
    scanFrom_unrecalled recalled h.unrecalled
  obtain ⟨htokens, hflaws⟩ := scanFrom_moved recalled position 0 source.toList
  rw [hsource] at htokens hflaws
  rw [h.clean, List.map_nil, List.map_eq_nil_iff] at hflaws
  exact ⟨htokens, hflaws⟩

theorem IsPlain.tokens_ofSource {source : String} (h : IsPlain source) (previous : String) :
    tokens (ofSource source previous) = tokens (ofSource source) :=
  (h.scanFrom _ 0).1

theorem tokens_name {name : String} (h : IsName name) :
    tokens (ofSource name) = [⟨.identifier, name⟩] := by
  rw [(Lexes.name h).ofSource, tokens_map_token]

theorem isPlain_name {name : String} (h : IsName name) (hname : name ≠ Token.answer) :
    IsPlain name := by
  refine ⟨?_, fun hmem => hname ?_⟩
  · rw [(Lexes.name h).ofSource, diagnostics_map_token]
  · rw [tokens_name h, List.mem_singleton] at hmem
    exact (congrArg Token.text hmem).symm

section Joined

variable {spaced sign : String} {kind : Token.Kind}
  (hspaced : spaced.toList = ' ' :: (sign.toList ++ [' '])) (hlong : sign.toList ≠ [])
  (hsign : ∀ rest, leadingOperator (sign.toList ++ ' ' :: rest) = some (sign, kind))
  (first previous : String)

include hspaced hlong hsign

/-- A text comes apart at a sign between blanks. -/
theorem ofSource_apart (second : String) :
    ∃ recalled position, (∀ source, ofSource source previous = scan recalled source) ∧
      tokens (ofSource (first ++ " ") previous) = tokens (ofSource first previous) ∧
      ofSource (first ++ spaced ++ second) previous =
        ofSource (first ++ " ") previous ++
          .token ⟨kind, sign⟩ :: scanFrom recalled position second.toList := by
  have hblank : isGap ' ' := by decide
  obtain ⟨recalled, hsource⟩ : ∃ recalled, ∀ source, ofSource source previous = scan recalled source :=
    ⟨_, fun _ => rfl⟩
  obtain ⟨before, htokens, hbefore⟩ := scanFrom_before_gap recalled hblank 0 first.toList
  have htext : (first ++ spaced ++ second).toList =
      first.toList ++ ' ' :: (sign.toList ++ ' ' :: second.toList) := by
    simp [hspaced]
  have hwhole : scan recalled (first ++ spaced ++ second) = before ++ .token ⟨kind, sign⟩ ::
      scanFrom recalled (0 + first.toList.length + 1 + sign.toList.length + 1) second.toList := by
    rw [scan_eq, htext, hbefore, scanFrom_operator recalled (hsign _) _ hlong,
      scanFrom_gap recalled hblank]
  have hfirst : scan recalled (first ++ " ") = before := by
    have hnil : ∀ position, scanFrom recalled position [] = [] := fun _ => rfl
    rw [scan_eq, String.toList_append, show " ".toList = [' '] from rfl, hbefore, hnil,
      List.append_nil]
  refine ⟨recalled, 0 + first.toList.length + 1 + sign.toList.length + 1, hsource, ?_, ?_⟩
  · rw [hsource, hsource, hfirst, htokens, scan_eq]
  · rw [hsource, hsource, hwhole, hfirst]

theorem tokens_joined (second : String) :
    tokens (ofSource (first ++ spaced ++ second) previous) =
      tokens (ofSource first previous) ++ ⟨kind, sign⟩ :: tokens (ofSource second previous) := by
  obtain ⟨recalled, position, hsource, htokens, hwhole⟩ :=
    ofSource_apart hspaced hlong hsign first previous second
  obtain ⟨hsecond, -⟩ := scanFrom_moved recalled position 0 second.toList
  rw [hwhole, tokens_append, htokens, hsource second, scan_eq, ← hsecond]
  rfl

/-- **Two texts joined by a sign between blanks.** If the second is plain, the whole has the
tokens of both with the sign between them, and is malformed where the first one is. -/
theorem ofSource_joined {second : String} (hsecond : IsPlain second) :
    tokens (ofSource (first ++ spaced ++ second) previous) =
        tokens (ofSource first previous) ++ ⟨kind, sign⟩ :: tokens (ofSource second) ∧
      diagnostics (ofSource (first ++ spaced ++ second) previous) =
        diagnostics (ofSource (first ++ " ") previous) := by
  constructor
  · rw [tokens_joined hspaced hlong hsign, hsecond.tokens_ofSource]
  · obtain ⟨recalled, position, -, -, hwhole⟩ :=
      ofSource_apart hspaced hlong hsign first previous second
    rw [hwhole, diagnostics_append]
    exact (congrArg (_ ++ ·) (hsecond.scanFrom recalled position).2).trans (List.append_nil _)

end Joined

end Propositional.Lexeme
