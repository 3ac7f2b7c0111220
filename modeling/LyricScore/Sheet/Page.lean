/-
Sheet pages: an HTML document around engraved pages, with the tune it was made from.
-/
import LyricScore.Text.Blank

namespace LyricScore.Sheet

/-- A character in HTML text. -/
def escapeChar (c : Char) : List Char :=
  if c = '&' then "&amp;".toList
  else if c = '<' then "&lt;".toList
  else if c = '>' then "&gt;".toList
  else [c]

/-- A text with the three characters escaped that HTML text cannot hold. -/
def escape (s : String) : String :=
  String.ofList (s.toList.flatMap escapeChar)

/-- The part of the document before the title. -/
def opening : List String :=
  ["<!DOCTYPE html>",
   "<html lang=\"en\">",
   "<head>",
   "  <meta charset=\"UTF-8\" />",
   "  <meta name=\"viewport\" content=\"width=device-width, initial-scale=1.0\" />"]

/-- The styles for screen and print, and the end of the head. -/
def styles : List String :=
  ["  <style>",
   "    body \x7b",
   "      font-family: Georgia, serif;",
   "      background: #f0f0f0;",
   "      margin: 0;",
   "      padding: 2rem;",
   "    \x7d",
   "    h1 \x7b",
   "      text-align: center;",
   "      font-size: 1.6rem;",
   "      color: #222;",
   "    \x7d",
   "    .page \x7b",
   "      background: #fff;",
   "      box-shadow: 0 2px 8px rgba(0, 0, 0, 0.15);",
   "      margin: 0 auto 2rem;",
   "      max-width: 860px;",
   "      padding: 1rem;",
   "    \x7d",
   "    .page svg \x7b",
   "      display: block;",
   "      width: 100%;",
   "      height: auto;",
   "    \x7d",
   "    .source \x7b",
   "      max-width: 860px;",
   "      margin: 0 auto;",
   "    \x7d",
   "    @media print \x7b",
   "      body \x7b background: #fff; padding: 0; \x7d",
   "      .page \x7b box-shadow: none; page-break-after: always; max-width: 100%; \x7d",
   "      .page:last-child \x7b page-break-after: avoid; \x7d",
   "      .source \x7b display: none; \x7d",
   "    \x7d",
   "  </style>",
   "</head>",
   "<body>"]

/-- The heading of the page, for a page with a title. -/
def heading (title : String) : String :=
  if title = "" then "" else "  <h1>" ++ escape title ++ "</h1>\n"

/-- One engraved page. -/
def pageBox (page : String) : String :=
  "  <div class=\"page\">" ++ page ++ "</div>"

/-- The tune, folded away below the pages. -/
def sourceBox (tune : String) : String :=
  if tune = "" then ""
  else
    "\n  <details class=\"source\"><summary>ABC</summary><pre>" ++ escape tune
      ++ "</pre></details>"

/-- The document for a title, engraved pages and a tune. -/
def document (title : String) (pages : List String) (tune : String) : String :=
  "\n".intercalate
    (opening ++ ["  <title>" ++ escape title ++ "</title>"] ++ styles
      ++ [heading title ++ "\n".intercalate (pages.map pageBox) ++ sourceBox tune, "</body>",
        "</html>"])

/-- A tune as a file: it ends with a line feed. -/
def tuneFile (tune : String) : String :=
  if tune.toList.getLast? = some '\n' then tune else tune ++ "\n"

end LyricScore.Sheet
