import CommandCoverage.Report.Recommendation
import CommandCoverage.Table
import CommandCoverage.Text.Lines

namespace CommandCoverage

structure Origin where
  analyzedAt : String
  cliPath : String
  testDir : String
  testFiles : Nat := 0
  invocations : Nat := 0
  method : String := "AST-based"
  deriving DecidableEq, Repr

structure Report where
  records : Records
  commands : Table Command
  recommendations : List Recommendation
  warnings : List Warning
  origin : Origin

namespace Report

def commandsOf (root : Command) : Table Command :=
  root.nodes.foldl (fun t (path, c) ↦ t.set (root.fullName path) c) {}

/-- The report on a coverage; the warnings of earlier stages come first. -/
def ofCoverage (g : Goals) (o : Origin) (earlier : List Warning) (c : Coverage) :
    Except Failure Report :=
  (Recommendation.ofCoverage g c).map fun recommendations ↦
    { records := c.records
      commands := commandsOf c.tree
      recommendations
      warnings := earlier ++ c.warnings
      origin := o }

/-- The first recommendations; a negative count leaves some at the end out. -/
def top (r : Report) (count : Int) : List Recommendation :=
  let n := if count < 0 then r.recommendations.length - count.natAbs else count.toNat
  r.recommendations.take n

end Report

def orNoDescription (s : String) : String := if s.isEmpty then "No description" else s

def Record.percentText (r : Record) : String := fixedPlaces 1 r.rounded ++ "%"

def Record.ratioText (r : Record) : String :=
  Nat.repr r.tested ++ "/" ++ Nat.repr r.total ++ " (" ++ r.percentText ++ ")"

def Command.importText (c : Command) : String :=
  match c.importedFrom.filter (!·.isEmpty) with
  | none => ""
  | some m => " (from " ++ m ++ ")"

end CommandCoverage
