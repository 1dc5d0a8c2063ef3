import CommandCoverage.Report.Basic

namespace CommandCoverage

def heading (title : String) : List String := [title, "".pushn '=' 40, ""]

def checkBox (tested : Bool) : String := if tested then "[x]" else "[ ]"

def Arg.reportLine (indent : String) (a : Arg) : String :=
  indent ++ "    " ++ checkBox a.tested ++ " --" ++ a.name ++ " (" ++ a.type ++ "): " ++
    orNoDescription a.description

namespace Report

def recordLine (r : Records) (c : Category) : String :=
  let label := c.label ++ ":"
  "  " ++ label.pushn ' ' (13 - label.length) ++ " " ++ (r.get c).ratioText

def commandLines (path : String) (c : Command) : List String :=
  let indent := Text.indentation (path.toList.count ' ' + 1)
  (indent ++ checkBox c.tested ++ " " ++ path ++ ": " ++ orNoDescription c.description ++
    c.importText) :: c.args.map (·.reportLine indent)

def priorityLines (rs : List Recommendation) (p : Priority) : List String :=
  let group := Recommendation.ofPriority p rs
  if group.isEmpty then []
  else ("  " ++ p.title ++ " priority:") :: group.map fun r ↦ "    - " ++ r.message

def section_ {α : Type} (title : String) (items : List α) (lines : List α → List String) :
    List String :=
  if items.isEmpty then [] else title :: lines items ++ [""]

def originLines (o : Origin) : List String :=
  ["  CLI Path: " ++ o.cliPath, "  Test Directory: " ++ o.testDir,
    "  Analysis Method: " ++ o.method, "  Test Files: " ++ Nat.repr o.testFiles,
    "  Invocation Patterns: " ++ Nat.repr o.invocations, ""]

def textLines (r : Report) (verbose : Bool) : List String :=
  heading "Test Coverage Analysis Report" ++ "Coverage Summary:" :: originLines r.origin ++
    "Coverage Statistics:" :: Category.all.map (recordLine r.records) ++
    ["", "Command Coverage Details:"] ++
    r.commands.entries.flatMap (fun (path, c) ↦ commandLines path c) ++ [""] ++
    section_ "Recommendations:" r.recommendations
      (fun rs ↦ Priority.all.flatMap (priorityLines rs)) ++
    section_ "Warnings:" r.warnings (·.map fun w ↦ "  " ++ w.text) ++
    if verbose then ["Analysis Metadata:", "  Analyzed At: " ++ r.origin.analyzedAt, ""] else []

def text (r : Report) (verbose : Bool) : String := Text.unlines (r.textLines verbose)

def statisticsLines (r : Report) (top : Int) : List String :=
  ["CLI Coverage Statistics", "".pushn '=' 24, "CLI: " ++ r.origin.cliPath,
    "Test Directory: " ++ r.origin.testDir, "Total Test Files: " ++ Nat.repr r.origin.testFiles,
    "", "Coverage Summary:"] ++
    Category.all.map (fun c ↦ "  " ++ c.label ++ ": " ++ (r.records.get c).ratioText) ++
    (if r.recommendations.isEmpty then []
      else "" :: "Top Recommendations:" :: Text.numbered ((r.top top).map (·.message))) ++ [""]

def statisticsText (r : Report) (top : Int) : String := Text.unlines (r.statisticsLines top)

end Report

namespace Recommendation

def allTested : String :=
  "No recommendations: every command, flag and option is exercised by a test."

def listTitle (priority : String) : String := "Recommendations (priority: " ++ priority ++ ")"

def exampleLines (markdown verbose : Bool) (snippet : String) : List String :=
  if snippet.isEmpty then []
  else if markdown then ["", "\x60\x60\x60js", snippet, "\x60\x60\x60", ""]
  else if verbose then (snippet.splitOn "\n").map ("     " ++ ·)
  else []

def lines (markdown verbose : Bool) (r : Recommendation) (i : Nat) : List String :=
  (Nat.repr (i + 1) ++ ". [" ++ r.priority.word ++ "] " ++ r.message) ::
    exampleLines markdown verbose (r.example_.getD "")

def listText (priority : String) (markdown verbose : Bool) (rs : List Recommendation) : String :=
  if rs.isEmpty then allTested
  else Text.unlines (heading (listTitle priority) ++
    rs.zipIdx.flatMap fun (r, i) ↦ r.lines markdown verbose i)

end Recommendation

namespace Command

def aliasText (a : Arg) : String := String.join (a.aliases.map (", -" ++ ·))

def structureLines (root : Command) (path : List String) (c : Command) : List String :=
  let indent := Text.indentation (path.length + 1)
  (indent ++ root.fullName path ++ ": " ++ orNoDescription c.description ++ c.importText) ::
    c.args.map (fun a ↦ indent ++ "    --" ++ a.name ++ aliasText a ++ " (" ++ a.type ++ "): " ++
      orNoDescription a.description) ++
    c.positionals.map fun a ↦ indent ++ "    <" ++ a.name ++ ">: " ++ orNoDescription a.description

def structureText (root : Command) (cliPath : String) (ws : List Warning) : String :=
  let nodes := root.nodes
  let count (f : Command → List Arg) : String :=
    Nat.repr (nodes.foldl (fun total n ↦ total + (f n.2).length) 0)
  Text.unlines (heading "CLI Structure Discovery Report" ++
    ["Discovery Summary:", "  CLI Path: " ++ cliPath, "  Commands: " ++ Nat.repr nodes.length,
      "  Flags: " ++ count (·.flags), "  Options: " ++ count (·.options), "",
      "Discovered Commands:"] ++
    nodes.flatMap (fun (path, c) ↦ structureLines root path c) ++
    (if ws.isEmpty then [] else "" :: "Warnings:" :: ws.map fun w ↦ "  " ++ w.text) ++ [""])

end Command

end CommandCoverage
