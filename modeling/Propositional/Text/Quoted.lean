/-
Quoted texts, as they stand in messages: single quotes, unless the text holds a
single quote and no double one; a backslash before the quote in use and before
itself; every character that is not printable written by its code.
-/
import Propositional.Text.Characters

namespace Propositional.Text

/-- The code in lower-case hexadecimal, with zeros in front up to `width` digits. -/
def hexCode (width n : Nat) : List Char :=
  let digits := Nat.toDigits 16 n
  List.replicate (width - digits.length) '0' ++ digits

/-- One character of a text that stands between two marks `mark`. -/
def escape (mark c : Char) : List Char :=
  if c = mark ∨ c = '\\' then ['\\', c]
  else if c = '\n' then ['\\', 'n']
  else if c = '\r' then ['\\', 'r']
  else if c = '\t' then ['\\', 't']
  else if isPrintable c then [c]
  else if c.toNat < 0x100 then '\\' :: 'x' :: hexCode 2 c.toNat
  else if c.toNat < 0x10000 then '\\' :: 'u' :: hexCode 4 c.toNat
  else '\\' :: 'U' :: hexCode 8 c.toNat

def singleMark : Char := '\x27'

def doubleMark : Char := '\x22'

/-- Double quotes serve only where they need no escape and single ones would. -/
def quoteMark (cs : List Char) : Char :=
  if singleMark ∈ cs ∧ doubleMark ∉ cs then doubleMark else singleMark

def quote (s : String) : String :=
  let cs := s.toList
  let mark := quoteMark cs
  String.ofList (mark :: cs.flatMap (escape mark) ++ [mark])

example : quote "p" = "'p'" := by decide
example : quote "it\x27s" = "\x22it\x27s\x22" := by decide
example : quote "\u00ad" = "'\\xad'" := by decide +kernel

end Propositional.Text
