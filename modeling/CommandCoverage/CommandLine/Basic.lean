import CommandCoverage.Assessment.Basic
import CommandCoverage.CommandLine.Markup
import CommandCoverage.CommandLine.Request
import CommandCoverage.Report.Render
import CommandCoverage.Settings.Environment

namespace CommandCoverage.CommandLine

inductive Ending where
  | misused (f : UsageFault)
  | help
  | nothing
  | version
  | unknownPriority (word : String)
  | badSettings (f : SettingsFault)
  | failed (f : Failure)
  | report (text : String) (output : Option String)
  | unwritten
  deriving Inhabited

structure Outcome where
  ending : Ending
  notices : List (Stage × Warning) := []
  deriving Inhabited

def versionText : String := "clicov 0.1.0"

def helpText : String := Text.unlines
  ["Usage: clicov [OPTIONS] COMMAND [ARGS]...",
    "",
    "Measure how much of a command line's surface its tests exercise.",
    "",
    "Commands:",
    "  analyze    Full coverage report.",
    "  discover   The commands found in the sources.",
    "  stats      A summary with the top recommendations.",
    "  recommend  What to test next.",
    "",
    "Options: --cli-path --test-dir --include-patterns --exclude-patterns --format/-f",
    "  --output/-o --verbose --no-cache --fail-fast --workers --priority --version --help"]

def logName : Stage → String
  | .commands => "CLIStructureDiscoverer"
  | .tests => "TestPatternDiscoverer"
  | .coverage => "CoverageMapper"

def logLine (n : Stage × Warning) : String := "WARNING " ++ logName n.1 ++ ": " ++ n.2.text

namespace Ending

def labelled (label message : String) : Option String :=
  Markup.shown (label ++ " " ++ Markup.escape message)

def remedyLines (f : Failure) : List String :=
  if f.suggestions.isEmpty then []
  else ["", "Possible fixes:"] ++ Text.numbered f.suggestions

def faultText : SettingsFault → String
  | .invalid fields => "; ".intercalate (fields.map fun (n, f) ↦ n ++ ": " ++ f.code)
  | .notList n => n.message

def errorLines : Ending → Option (List String)
  | misused f => some ["Error: " ++ f.message]
  | unknownPriority w =>
    (labelled "Error: unknown priority" ("'" ++ w ++ "'")).map
      ([·, "Use one of: high, medium, low, all"])
  | badSettings f => (labelled "Invalid configuration:" (faultText f)).map ([·])
  | failed (.unexpected kind message) =>
    (labelled "Unexpected error:" (kind ++ ": " ++ message)).map
      ([·, "Run again with --verbose for the full traceback."])
  | failed f => (labelled "Error:" f.message).map (· :: remedyLines f)
  | report _ (some path) => (Markup.shown ("Report saved to: " ++ path)).map ([·])
  | _ => some []

def outputLines : Ending → List String
  | help | nothing => [helpText]
  | version => [versionText]
  | report text none => [text]
  | _ => []

/-- What goes to a file: its path, and a text that ends with a line feed. -/
def file : Ending → Option (String × String)
  | report text (some path) =>
    some (path, if text.toList.getLast? == some '\n' then text else text ++ "\n")
  | _ => none

def exitCode (e : Ending) : Nat :=
  if e.errorLines.isNone then 1
  else
    match e with
    | misused _ | nothing | unknownPriority _ | badSettings _ => 2
    | failed f => f.exitCode
    | unwritten => 1
    | help | version | report .. => 0

end Ending

namespace Outcome

def stderr (o : Outcome) : String :=
  String.join ((o.notices.map logLine ++ o.ending.errorLines.getD []).map (· ++ "\n"))

def stdout (o : Outcome) : String := String.join (o.ending.outputLines.map (· ++ "\n"))

def exitCode (o : Outcome) : Nat := o.ending.exitCode

def unwritten (o : Outcome) : Outcome := { o with ending := .unwritten }

end Outcome

def textOf (p : Project) (r : Run) : Analysis (Except Failure String) := do
  match r.subcommand with
  | .discover =>
    return (← Analysis.commands p).map
      (·.renderStructure p.settings.cliPath (← get).warnings r.form)
  | .analyze => return (← Analysis.assess p).map (·.report.render r.verbose r.form)
  | .stats => return (← Analysis.assess p).map (·.report.renderStatistics 3 r.form)
  | .recommend =>
    let priority := ((Priority.choice r.priority).toOption).getD none
    return (← Analysis.recommend p priority).map (Recommendation.render r.priority r.verbose · r.form)

structure Surroundings where
  environment : Environment
  files : FileTree
  date : String

def execute (s : Surroundings) (r : Run) : Outcome :=
  if (Priority.choice r.priority).toOption.isNone then { ending := .unknownPriority r.priority }
  else
    match Settings.read s.environment r.given with
    | .error f => { ending := .badSettings f }
    | .ok settings =>
      let p : Project := { settings, files := s.files, date := s.date }
      let (result, session) := (textOf p r).run settings.session
      let ending := match result with
        | .error f => .failed f
        | .ok text => .report text (r.output.map FileTree.plainPath)
      { ending, notices := session.notices }

def run (s : Surroundings) (words : List String) : Outcome :=
  match readRequest words with
  | .error f => { ending := .misused f }
  | .ok .help => { ending := .help }
  | .ok .nothing => { ending := .nothing }
  | .ok .version => { ending := .version }
  | .ok (.run r) => execute s r

end CommandCoverage.CommandLine
