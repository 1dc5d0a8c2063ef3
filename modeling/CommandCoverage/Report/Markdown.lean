import CommandCoverage.Report.Basic

namespace CommandCoverage.Report.Markdown

def code (s : String) : String := "\x60" ++ s ++ "\x60"

def box (tested : Bool) : String := if tested then "- [x] " else "- [ ] "

def section_ {α : Type} (title : String) (items : List α) (lines : α → List String) : List String :=
  if items.isEmpty then [] else ["", "## " ++ title, ""] ++ items.flatMap lines

def recordRow (r : Records) (c : Category) : String :=
  let record := r.get c
  "| " ++ " | ".intercalate
    [c.label, Nat.repr record.tested, Nat.repr record.total, record.percentText] ++ " |"

def commandLines (path : String) (c : Command) : List String :=
  Text.strippedEnd (box c.tested ++ code path ++ " " ++ c.description) ::
    c.args.map fun a ↦ "  " ++ box a.tested ++ code ("--" ++ a.name) ++ " (" ++ a.type ++ ")"

def exampleLines (snippet : String) : List String :=
  if snippet.isEmpty then []
  else ["", "  \x60\x60\x60js"] ++ (snippet.splitOn "\n").map ("  " ++ ·) ++
    ["  \x60\x60\x60", ""]

def recommendationLines (r : Recommendation) : List String :=
  ("- **" ++ r.priority.word ++ "** " ++ r.message) :: exampleLines (r.example_.getD "")

def originLines (o : Origin) (verbose : Bool) : List String :=
  ["- **CLI Path:** " ++ code o.cliPath, "- **Test Directory:** " ++ code o.testDir,
    "- **Analysis Method:** " ++ o.method, "- **Test Files:** " ++ Nat.repr o.testFiles] ++
    if verbose then ["- **Analyzed At:** " ++ o.analyzedAt] else []

def lines (r : Report) (verbose : Bool) : List String :=
  ["# Test Coverage Analysis Report", ""] ++ originLines r.origin verbose ++
    ["", "## Coverage", "", "| Category | Tested | Total | Coverage |",
      "|----------|--------|-------|----------|"] ++
    Category.all.map (recordRow r.records) ++ ["", "## Commands", ""] ++
    r.commands.entries.flatMap (fun (path, c) ↦ commandLines path c) ++
    section_ "Recommendations" r.recommendations recommendationLines ++
    section_ "Warnings" r.warnings (fun w ↦ ["- " ++ code w.kind ++ " " ++ w.message]) ++ [""]

end Markdown

def markdown (r : Report) (verbose : Bool) : String := Text.unlines (Markdown.lines r verbose)

end CommandCoverage.Report
