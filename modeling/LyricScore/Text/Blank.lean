/-
Blanks, words and lines. A score is read line by line and word by word, so what counts as a
blank and where a line ends is fixed here once. Everything works on lists of characters and is
structural: splitting never loses a character other than the ones it splits at.
-/

namespace LyricScore.Text

-- ============================================================= blanks

/-- The characters that separate words: the ASCII controls for tabs, line ends and separators,
the space, and the spaces of other scripts. Zero-width characters are not blanks. -/
def isBlank (c : Char) : Bool :=
  let n := c.toNat
  (9 ≤ n && n ≤ 13) || (28 ≤ n && n ≤ 32) || n == 0x85 || n == 0xA0 || n == 0x1680
    || (0x2000 ≤ n && n ≤ 0x200A) || n == 0x2028 || n == 0x2029 || n == 0x202F || n == 0x205F
    || n == 0x3000

/-- The characters that end a line. A carriage return and a line feed together end one line. -/
def isLineEnd (c : Char) : Bool :=
  let n := c.toNat
  (10 ≤ n && n ≤ 13) || (28 ≤ n && n ≤ 30) || n == 0x85 || n == 0x2028 || n == 0x2029

/-- A text without the characters of a class at its two ends. -/
def trimWhere (p : Char → Bool) (cs : List Char) : List Char :=
  ((cs.dropWhile p).reverse.dropWhile p).reverse

/-- A text without the blanks at its two ends. -/
def trim (cs : List Char) : List Char :=
  trimWhere isBlank cs

-- ========================================================== splitting

/-- Cut a list at every element of a class. The elements cut at are dropped, and there is one
part more than there are such elements. -/
def splitWhere {α : Type} (p : α → Bool) : List α → List (List α)
  | [] => [[]]
  | a :: rest =>
    if p a then [] :: splitWhere p rest
    else
      match splitWhere p rest with
      | [] => [[a]]
      | part :: parts => (a :: part) :: parts

/-- The parts between elements of a class, without the empty ones. -/
def partsBetween {α : Type} (p : α → Bool) (l : List α) : List (List α) :=
  (splitWhere p l).filter (fun part => !part.isEmpty)

/-- The words of a text: its longest runs without a blank. -/
def words (cs : List Char) : List (List Char) :=
  partsBetween isBlank cs

/-- The lines of a text. A line end closes the line before it, so a text that ends with one has
no empty last line. -/
def lines : List Char → List (List Char)
  | [] => []
  | '\r' :: '\n' :: rest => [] :: lines rest
  | c :: rest =>
    if isLineEnd c then [] :: lines rest
    else
      match lines rest with
      | [] => [[c]]
      | line :: more => (c :: line) :: more

/-- Lists joined with a separator between each two. -/
def joinWith (sep : List Char) (parts : List (List Char)) : List Char :=
  sep.intercalate parts

/-- Runs of blanks become one space, and blanks at the ends go. -/
def squeeze (cs : List Char) : List Char :=
  joinWith [' '] (words cs)

end LyricScore.Text
