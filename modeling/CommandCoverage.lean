import CommandCoverage.Command.Draft
import CommandCoverage.Files.Writer
import CommandCoverage.Main
import CommandCoverage.Proofs.Assessment.Sharing
import CommandCoverage.Proofs.Cache.Eviction
import CommandCoverage.Proofs.Cache.Refinement
import CommandCoverage.Proofs.Cache.Trust
import CommandCoverage.Proofs.Command.Building
import CommandCoverage.Proofs.Coverage.Counts
import CommandCoverage.Proofs.Coverage.Dependence
import CommandCoverage.Proofs.Discovery.Build
import CommandCoverage.Proofs.Discovery.Distinct
import CommandCoverage.Proofs.Discovery.Fallback
import CommandCoverage.Proofs.Discovery.Forms
import CommandCoverage.Proofs.Discovery.HandedOver
import CommandCoverage.Proofs.Discovery.Registration
import CommandCoverage.Proofs.Files.Selected
import CommandCoverage.Proofs.Invocation.Calls
import CommandCoverage.Proofs.Invocation.Completeness
import CommandCoverage.Proofs.Invocation.Groups
import CommandCoverage.Proofs.Invocation.Items
import CommandCoverage.Proofs.Invocation.Negation
import CommandCoverage.Proofs.Invocation.Searching
import CommandCoverage.Proofs.Invocation.Spelling
import CommandCoverage.Proofs.Invocation.Values
import CommandCoverage.Proofs.Invocation.Workers
import CommandCoverage.Proofs.Report.Completion
import CommandCoverage.Proofs.Report.Entries
import CommandCoverage.Proofs.Report.Ranking
import CommandCoverage.Proofs.Report.Shape
import CommandCoverage.Proofs.Report.Silence
import CommandCoverage.Proofs.Report.Snippet
import CommandCoverage.Proofs.Report.TokenLists
import CommandCoverage.Proofs.Script.Faults
import CommandCoverage.Proofs.Script.Literals
import CommandCoverage.Proofs.Settings.Lists
