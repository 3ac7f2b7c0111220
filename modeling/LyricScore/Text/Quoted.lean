/-
Quoted text, for messages. A text stands between apostrophes, or between double quotation marks
when it holds an apostrophe and no double mark. The mark in use and the backslash are escaped,
tabs and line ends have their short escapes, and every other unprintable character is written
by its number in hexadecimal.
-/
import LyricScore.Text.Printable

namespace LyricScore.Text

/-- The apostrophe. -/
def apostrophe : Char := Char.ofNat 0x27

/-- The double quotation mark. -/
def doubleMark : Char := Char.ofNat 0x22

/-- The backslash. -/
def backslash : Char := Char.ofNat 0x5C

/-- A number in lower-case hexadecimal with at least `width` digits. -/
def hex (width n : Nat) : List Char :=
  let digits := Nat.toDigits 16 n
  List.replicate (width - digits.length) '0' ++ digits

/-- An unprintable character by its number, in the shortest of the three widths it fits. -/
def numberEscape (c : Char) : List Char :=
  let n := c.toNat
  if n < 0x100 then backslash :: 'x' :: hex 2 n
  else if n < 0x10000 then backslash :: 'u' :: hex 4 n
  else backslash :: 'U' :: hex 8 n

/-- One character inside quotation marks. -/
def quoteChar (mark c : Char) : List Char :=
  if c = mark ∨ c = backslash then [backslash, c]
  else if c = '\t' then [backslash, 't']
  else if c = '\n' then [backslash, 'n']
  else if c = '\r' then [backslash, 'r']
  else if isPrintable c then [c]
  else numberEscape c

/-- The mark that encloses a text. -/
def quoteMark (cs : List Char) : Char :=
  if cs.contains apostrophe && !cs.contains doubleMark then doubleMark else apostrophe

/-- A text between quotation marks. -/
def quote (s : String) : String :=
  let cs := s.toList
  let mark := quoteMark cs
  String.ofList (mark :: cs.flatMap (quoteChar mark) ++ [mark])

end LyricScore.Text
