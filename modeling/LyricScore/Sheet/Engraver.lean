/-
Engraving. The notes are drawn by an engraver, which is asked in turn to take its settings, to
load the tune and to draw page after page. Engravers differ in how they want to be asked for a
page; the ways are tried in order until one is accepted. Every question is kept.
-/
import LyricScore.Error
import LyricScore.Score.Tree
import LyricScore.Sheet.Page

namespace LyricScore

open Text

/-- How an engraver can be asked for a page. -/
inductive Manner where
  /-- By name. -/
  | named
  /-- By the page number and whether to declare the drawing's format. -/
  | paired
  /-- By the page number alone. -/
  | single
  deriving DecidableEq

/-- An engraver: whether it takes a tune, how many pages it has then, the first manner that it
accepts (it accepts the plainer ones too), and what it draws. -/
structure Engraver where
  loads : Bool
  pages : Int
  manner : Manner
  draw : Int → String

/-- A question to an engraver. -/
inductive Question where
  | settings
  | load (tune : String)
  | page (number : Int) (manner : Manner)
  deriving DecidableEq

namespace Engraver

/-- The settings for an engraver: pages of A4 size. -/
def settings : List (String × Tree) :=
  [("inputFrom", .text "abc"),
   ("pageHeight", .number 2970),
   ("pageWidth", .number 2100),
   ("scale", .number 50),
   ("pageMarginTop", .number 100),
   ("pageMarginBottom", .number 100),
   ("pageMarginLeft", .number 100),
   ("pageMarginRight", .number 100),
   ("adjustPageHeight", .flag true)]

/-- The manners that are tried for an engraver, up to the one it accepts. -/
def manners (e : Engraver) : List Manner :=
  match e.manner with
  | .named => [.named]
  | .paired => [.named, .paired]
  | .single => [.named, .paired, .single]

/-- The numbers of the pages. -/
def pageNumbers (e : Engraver) : List Int :=
  (List.range e.pages.toNat).map fun n => ((n + 1 : Nat) : Int)

/-- The questions that draw all pages. -/
def pageQuestions (e : Engraver) : List Question :=
  e.pageNumbers.flatMap fun n => e.manners.map fun m => .page n m

/-- The document of a tune, and the questions that were asked for it. -/
def render (e : Engraver) (title tune : String) : List Question × Except Error String :=
  if (trim tune.toList).isEmpty then ([], .error .emptyTune)
  else if e.loads then
    (.settings :: .load tune :: e.pageQuestions,
      .ok (Sheet.document title (e.pageNumbers.map e.draw) tune))
  else ([.settings, .load tune], .error .refusedTune)

end Engraver

end LyricScore
