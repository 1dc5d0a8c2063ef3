import CommandCoverage.Page.Basic
import CommandCoverage.Report.Text

namespace CommandCoverage

open Piece Page

def Recommendation.examplePieces (r : Recommendation) : Line :=
  match r.example_.filter (!·.isEmpty) with
  | none => []
  | some snippet => [fixed "<pre>", shown snippet, fixed "</pre>"]

def Recommendation.itemLine (r : Recommendation) : Line :=
  [fixed ("<li><strong>" ++ r.priority.word ++ "</strong> "), shown r.message] ++ r.examplePieces ++
    [fixed "</li>"]

namespace Report

def statusWord (tested : Bool) : String := if tested then "tested" else "untested"

def recordRow (r : Records) (c : Category) : Line :=
  let record := r.get c
  line ("<tr><td>" ++ c.label ++ "</td><td>" ++ Nat.repr record.tested ++ "</td><td>" ++
    Nat.repr record.total ++ "</td><td>" ++ record.percentText ++ "</td></tr>")

def argLine (a : Arg) : Line :=
  [fixed ("<li class=\"" ++ statusWord a.tested ++ "\"><code>--"), shown a.name,
    fixed "</code> (", shown a.type, fixed ")</li>"]

def listOf (opening closing : List String) (items : Page) : Page :=
  if items.isEmpty then [] else opening.map line ++ items ++ closing.map line

def commandItem (path : String) (c : Command) : Page :=
  [fixed ("<li class=\"" ++ statusWord c.tested ++ "\"><code>"), shown path, fixed "</code> ",
      shown c.description] ::
    listOf ["<ul>"] ["</ul>"] (c.args.map argLine) ++ [line "</li>"]

def warningLine (w : Warning) : Line :=
  [fixed "<li><code>", shown w.kind, fixed "</code> ", shown w.message, fixed "</li>"]

def originItem (label : String) (value : Line) : Line :=
  fixed ("<li><strong>" ++ label ++ ":</strong> ") :: value ++ [fixed "</li>"]

def codePieces (s : String) : Line := [fixed "<code>", shown s, fixed "</code>"]

def originItems (o : Origin) (verbose : Bool) : Page :=
  [originItem "CLI Path" (codePieces o.cliPath), originItem "Test Directory" (codePieces o.testDir),
    originItem "Analysis Method" [shown o.method],
    originItem "Test Files" [fixed (Nat.repr o.testFiles)]] ++
    if verbose then [originItem "Analyzed At" [shown o.analyzedAt]] else []

def page (r : Report) (verbose : Bool) : Page :=
  titled "Test Coverage Analysis Report" <|
    [line "<ul>"] ++ originItems r.origin verbose ++
    ["</ul>", "<h2>Coverage</h2>", "<table>",
      "<tr><th>Category</th><th>Tested</th><th>Total</th><th>Coverage</th></tr>"].map line ++
    Category.all.map (recordRow r.records) ++
    ["</table>", "<h2>Commands</h2>", "<ul>"].map line ++
    r.commands.entries.flatMap (fun (path, c) ↦ commandItem path c) ++ [line "</ul>"] ++
    listOf ["<h2>Recommendations</h2>", "<ol>"] ["</ol>"] (r.recommendations.map (·.itemLine)) ++
    listOf ["<h2>Warnings</h2>", "<ul>"] ["</ul>"] (r.warnings.map warningLine)

def statisticsPage (r : Report) (top : Int) : Page :=
  preformatted "CLI Coverage Statistics" (r.statisticsText top)

end Report

def Recommendation.listPage (priority : String) (rs : List Recommendation) : Page :=
  if rs.isEmpty then preformatted "Recommendations" allTested
  else titled (listTitle priority) ([line "<ol>"] ++ rs.map (·.itemLine) ++ [line "</ol>"])

def Command.structurePage (root : Command) (cliPath : String) (ws : List Warning) : Page :=
  preformatted "CLI Structure Discovery Report" (root.structureText cliPath ws)

end CommandCoverage
