import CommandCoverage.Discovery.Root
import CommandCoverage.Report.Basic
import CommandCoverage.Settings.Basic

namespace CommandCoverage

structure Project where
  settings : Settings
  files : FileTree
  now : Float := 0
  elapsed : Nat → Float := fun _ ↦ 0
  date : String

namespace Settings

def search (s : Settings) : Search where
  directory := s.testDir
  selection := ⟨s.includePatterns, s.excludePatterns⟩
  runners := s.runnerNames
  policy := s.policy

def goals (s : Settings) : Goals where
  target := s.coverageTarget
  runner := s.runnerNames.head?.getD ""

def session (s : Settings) : Session where
  cache := { ttl := s.cacheTtl, maxSize := s.cacheMaxSize, enabled := s.cacheEnabled }

end Settings

namespace Project

def workspace (p : Project) : Workspace where
  files := p.files
  maxFileSize := p.settings.maxFileSize
  clock k := p.now + p.elapsed k

def origin (p : Project) (f : Finding) : Origin where
  analyzedAt := p.date
  cliPath := p.settings.cliPath
  testDir := p.settings.testDir
  testFiles := f.files.length
  invocations := f.invocations.length

end Project

structure Assessment where
  finding : Finding
  coverage : Coverage
  report : Report

namespace Analysis

def commands (p : Project) : Analysis (Except Failure Command) :=
  discover p.workspace p.settings.cliPath

def assess (p : Project) : Analysis (Except Failure Assessment) := do
  match ← commands p with
  | .error f => return .error f
  | .ok root =>
    match ← searchTests p.workspace p.settings.search root with
    | .error f => return .error f
    | .ok finding =>
      let coverage := Coverage.compute root finding.invocations
      coverage.warnings.forM (notify .coverage)
      let earlier := (← get).warnings ++ finding.warnings
      let report := Report.ofCoverage p.settings.goals (p.origin finding) earlier coverage
      return report.map ({ finding, coverage, report := · })

def recommend (p : Project) (priority : Option Priority) :
    Analysis (Except Failure (List Recommendation)) := do
  return (← assess p).map fun a ↦ Recommendation.chosen priority a.report.recommendations

end Analysis

end CommandCoverage
