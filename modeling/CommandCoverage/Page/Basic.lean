namespace CommandCoverage

/-- A piece of a page. Texts are escaped when the page is written. -/
inductive Piece where
  | fixed (s : String)
  | shown (s : String)
  deriving DecidableEq, Repr

abbrev Piece.Line := List Piece

namespace Piece

def escapeChar : Char → List Char
  | '&' => "&amp;".toList
  | '<' => "&lt;".toList
  | '>' => "&gt;".toList
  | '\"' => "&quot;".toList
  | '\'' => "&#x27;".toList
  | c => [c]

def escape (s : String) : String := String.ofList (s.toList.flatMap escapeChar)

def render : Piece → String
  | fixed s => s
  | shown s => escape s

def renderLine (l : Line) : String := String.join (l.map render)

end Piece

open Piece

abbrev Page := List Line

namespace Page

def line (s : String) : Line := [fixed s]

def styles : Page :=
  ["<style>",
    "body \x7b font-family: sans-serif; margin: 2rem; \x7d",
    "table \x7b border-collapse: collapse; \x7d",
    "th, td \x7b border: 1px solid #ccc; padding: 0.3rem 0.8rem; text-align: left; \x7d",
    ".tested \x7b color: #1a7f37; \x7d .untested \x7b color: #cf222e; \x7d",
    "</style>"].map line

def titled (title : String) (body : Page) : Page :=
  ["<!DOCTYPE html>", "<html lang=\"en\">", "<head>", "<meta charset=\"utf-8\">"].map line ++
    [[fixed "<title>", shown title, fixed "</title>"]] ++ styles ++
    ["</head>", "<body>"].map line ++ [[fixed "<h1>", shown title, fixed "</h1>"]] ++ body ++
    ["</body>", "</html>", ""].map line

def preformatted (title content : String) : Page :=
  titled title [[fixed "<pre>", shown content, fixed "</pre>"]]

def render (p : Page) : String := "\n".intercalate (p.map renderLine)

end Page

end CommandCoverage
