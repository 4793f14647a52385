/-
From source text to lexemes. The text is cut into pieces from left to right: a
gap, an operator, a word, or something malformed, which takes the character
that broke it along. Gaps are dropped, operators and words become tokens, what
is malformed becomes a diagnostic with its position, and the word `ans` stands
for the lexemes of the previous text, when there is one.
-/
import Propositional.Token

namespace Propositional

/-- What is wrong with a malformed piece: the operator that was begun and what
was found in place of its last character, or a character that begins nothing. -/
inductive Flaw
  | twinArrow (found : Option Char)
  | arrow (found : Option Char)
  | binder (found : Option Char)
  | unknown (c : Char)
  deriving DecidableEq, Repr, Inhabited

namespace Flaw

def quoteFound : Option Char → String
  | none => "None"
  | some c => Text.quote (String.ofList [c])

def message : Flaw → String
  | twinArrow found => "Unexpected character: incomplete '<->', found " ++ quoteFound found
  | arrow found =>
    "Unexpected character: expected '>' after '-', but found " ++ quoteFound found
  | binder found =>
    "Unexpected character: expected '=' after ':', but found " ++ quoteFound found
  | unknown c => "Unexpected character: " ++ Text.quote (String.ofList [c])

end Flaw

/-- A flaw and where it begins, counted in characters. -/
structure Diagnostic where
  position : Nat
  flaw : Flaw
  deriving DecidableEq, Repr, Inhabited

def Diagnostic.describe (d : Diagnostic) : String :=
  d.flaw.message ++ " (at " ++ toString d.position ++ ")"

/-- How a piece of the source reads. -/
inductive Piece.Reading
  | gap
  | operator (kind : Token.Kind)
  | word
  | malformed (flaw : Flaw)
  deriving DecidableEq, Repr, Inhabited

/-- A piece of the source, and how it reads. -/
structure Piece where
  text : List Char
  reading : Piece.Reading
  deriving DecidableEq, Repr, Inhabited

namespace Piece

def isGap (c : Char) : Bool := c = ' ' || c = '\t' || c = '\n'

/-- Words are made of the letters of the English alphabet. -/
def isLetter (c : Char) : Bool := c.isAlpha

/-- A malformed piece: the characters `begun`, and the one after them that broke it. -/
def broken (begun : List Char) (flaw : Option Char → Flaw) (rest : List Char) : Piece :=
  ⟨begun ++ rest.head?.toList, .malformed (flaw rest.head?)⟩

/-- The operator that a text begins with, and its spelling. -/
def leadingOperator (source : List Char) : Option (String × Token.Kind) :=
  Token.spellings.find? fun (spelling, _) => spelling.toList.isPrefixOf source

/-- The piece that a text begins with; `c` is its first character. -/
def cut (c : Char) (rest : List Char) : Piece :=
  match leadingOperator (c :: rest) with
  | some (spelling, kind) => ⟨spelling.toList, .operator kind⟩
  | none =>
    if isGap c then ⟨c :: rest.takeWhile isGap, .gap⟩
    else if isLetter c then ⟨c :: rest.takeWhile isLetter, .word⟩
    else if c = '<' then
      match rest with
      | '-' :: rest => broken ['<', '-'] .twinArrow rest
      | rest => broken ['<'] .twinArrow rest
    else if c = '-' then broken ['-'] .arrow rest
    else if c = ':' then broken [':'] .binder rest
    else ⟨[c], .malformed (.unknown c)⟩

/-- The pieces of a text and their positions. The text begins at `position`; its
first `taken` characters belong to a piece already cut. -/
def cutAll (position taken : Nat) : List Char → List (Nat × Piece)
  | [] => []
  | c :: rest =>
    match taken with
    | taken + 1 => cutAll (position + 1) taken rest
    | 0 =>
      let piece := cut c rest
      (position, piece) :: cutAll (position + 1) (piece.text.length - 1) rest

end Piece

/-- One item of the source as the parser meets it. -/
inductive Lexeme
  | token (t : Token)
  | malformed (d : Diagnostic)
  deriving DecidableEq, Repr, Inhabited

namespace Lexeme

/-- What a piece at a position contributes. `recalled` is what the word `ans` stands for. -/
def ofPiece (recalled : Option (List Lexeme)) : Nat × Piece → List Lexeme
  | (_, ⟨_, .gap⟩) => []
  | (_, ⟨text, .operator kind⟩) => [token ⟨kind, String.ofList text⟩]
  | (_, ⟨text, .word⟩) =>
    let word := String.ofList text
    match recalled with
    | some lexemes =>
      if word = Token.answer then lexemes else [token ⟨Token.kindOfWord word, word⟩]
    | none => [token ⟨Token.kindOfWord word, word⟩]
  | (position, ⟨_, .malformed flaw⟩) => [malformed ⟨position, flaw⟩]

/-- The lexemes of a text in which `ans` stands for `recalled`. -/
def scan (recalled : Option (List Lexeme)) (source : String) : List Lexeme :=
  (Piece.cutAll 0 0 source.toList).flatMap (ofPiece recalled)

/-- The lexemes of a text after a previous one. In the previous text itself, and
where there is none, `ans` is a word like any other. -/
def ofSource (source : String) (previous : String := "") : List Lexeme :=
  scan (if previous = "" then none else some (scan none previous)) source

def token? : Lexeme → Option Token
  | token t => some t
  | malformed _ => none

def diagnostic? : Lexeme → Option Diagnostic
  | token _ => none
  | malformed d => some d

/-- The tokens among lexemes. -/
def tokens (lexemes : List Lexeme) : List Token := lexemes.filterMap token?

/-- The diagnostics among lexemes. -/
def diagnostics (lexemes : List Lexeme) : List Diagnostic := lexemes.filterMap diagnostic?

@[simp] theorem tokens_append (xs ys : List Lexeme) : tokens (xs ++ ys) = tokens xs ++ tokens ys :=
  List.filterMap_append

@[simp] theorem diagnostics_append (xs ys : List Lexeme) :
    diagnostics (xs ++ ys) = diagnostics xs ++ diagnostics ys :=
  List.filterMap_append

@[simp] theorem tokens_map_token (ts : List Token) : tokens (ts.map .token) = ts := by
  simp [tokens, List.filterMap_map, Function.comp_def, token?]

@[simp] theorem diagnostics_map_token (ts : List Token) : diagnostics (ts.map .token) = [] := by
  simp [diagnostics, List.filterMap_map, Function.comp_def, diagnostic?]

end Lexeme

example : Lexeme.tokens (Lexeme.ofSource "p -> ~q") =
    [⟨.identifier, "p"⟩, ⟨.connective .cond, "->"⟩, ⟨.negation, "~"⟩, ⟨.identifier, "q"⟩] := by
  decide

end Propositional
