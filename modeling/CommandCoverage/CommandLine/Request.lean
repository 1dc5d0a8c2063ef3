import CommandCoverage.CommandLine.Option
import CommandCoverage.Report.Choice
import CommandCoverage.Settings.Field
import CommandCoverage.Text.Digit

namespace CommandCoverage.CommandLine

inductive Subcommand where
  | analyze | discover | stats | recommend
  deriving DecidableEq, Repr

namespace Subcommand

def all : List Subcommand := [analyze, discover, stats, recommend]

def word : Subcommand → String
  | analyze => "analyze"
  | discover => "discover"
  | stats => "stats"
  | recommend => "recommend"

def options (s : Subcommand) : List Option_ :=
  [.cliPath, .testDir, .includePatterns, .excludePatterns, .format, .output, .verbose, .noCache,
    .failFast, .workers, .help] ++ if s == recommend then [.priority] else []

end Subcommand

structure Run where
  subcommand : Subcommand
  form : ReportForm := .text
  output : Option String := none
  verbose : Bool := false
  priority : String := "all"
  given : List (String × Value) := []

inductive Request where
  | run (r : Run)
  | version
  | help
  | nothing

/-- A count of workers: a positive integer, with underscores between digits allowed. -/
def workersOf (word : String) : Option Nat := do
  let (negative, digits) := Field.takeSign (Text.trim word.toList)
  let digits ← Field.withoutUnderscores digits
  guard (!digits.isEmpty && !negative)
  let n ← digits.foldlM (fun n d ↦ (Text.digitValue d).map (10 * n + ·)) 0
  guard (0 < n)
  return n

def settingsOf (w : Words) (workers : Option Nat) : List (String × Value) :=
  let text (name : String) (o : Option_) : List (String × Value) :=
    (w.value? o).toList.map fun v ↦ (name, .text v)
  text "cli_path" .cliPath ++ text "test_dir" .testDir ++
    text "include_patterns" .includePatterns ++ text "exclude_patterns" .excludePatterns ++
    (if w.has .noCache then [("cache_enabled", .bool false)] else []) ++
    (if w.has .failFast then [("test_parse_policy", .text "fail_fast")] else []) ++
    workers.toList.map fun n ↦ ("workers", .int n)

def readRun (s : Subcommand) (words : List String) : Except UsageFault Request := do
  let w ← readWords s.options false words
  if w.has .help then return .help
  let form ← match w.value? .format with
    | none => pure .text
    | some f => (ReportForm.ofWord f).mapError fun _ ↦ UsageFault.unknownForm f
  let workers ← match w.value? .workers with
    | none => pure none
    | some n =>
      match workersOf n with
      | some k => pure (some k)
      | none => throw (.badWorkers n)
  match w.others with
  | o :: _ => throw (.extraArgument o)
  | [] =>
    return .run
      { subcommand := s, form, output := w.value? .output, verbose := w.has .verbose
        priority := (w.value? .priority).getD "all", given := settingsOf w workers }

def eager (w : Words) : Option Request :=
  match w.firstOf [.version, .help] with
  | some .version => some .version
  | some _ => some .help
  | none => none

def looksLikeOption (word : String) : Bool := word.toList.head?.any (!·.isAlphanum)

def readUnknown (word : String) (words : List String) : Except UsageFault Request := do
  if looksLikeOption word then
    let w ← readWords [.version, .help] true words
    match eager w with
    | some r => return r
    | none => throw (.unknownCommand word)
  else throw (.unknownCommand word)

def readRequest (words : List String) : Except UsageFault Request := do
  if words.isEmpty then return .nothing
  let w ← readWords [.version, .help] true words
  match eager w with
  | some r => return r
  | none =>
    match w.others with
    | [] => throw .missingCommand
    | c :: rest =>
      match Subcommand.all.find? (·.word == c) with
      | some s => readRun s rest
      | none => readUnknown c (c :: rest)

end CommandCoverage.CommandLine
