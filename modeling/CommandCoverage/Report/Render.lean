import CommandCoverage.Report.Document
import CommandCoverage.Report.Markdown
import CommandCoverage.Report.Page

namespace CommandCoverage

def Report.render (r : Report) (verbose : Bool) : ReportForm → String
  | .text => r.text verbose
  | .json => r.document.json
  | .markdown => r.markdown verbose
  | .html => (r.page verbose).render
  | .yaml => r.document.yaml

def Report.renderStatistics (r : Report) (top : Int) : ReportForm → String
  | .text | .markdown => r.statisticsText top
  | .json => (r.statisticsDocument top).json
  | .html => (r.statisticsPage top).render
  | .yaml => (r.statisticsDocument top).yaml

def Recommendation.render (priority : String) (verbose : Bool) (rs : List Recommendation) :
    ReportForm → String
  | .text => listText priority false verbose rs
  | .json => (document priority rs).json
  | .markdown => listText priority true verbose rs
  | .html => (listPage priority rs).render
  | .yaml => (document priority rs).yaml

def Command.renderStructure (root : Command) (cliPath : String) (ws : List Warning) :
    ReportForm → String
  | .text | .markdown => root.structureText cliPath ws
  | .json => (root.structureDocument cliPath ws).json
  | .html => (root.structurePage cliPath ws).render
  | .yaml => (root.structureDocument cliPath ws).yaml

end CommandCoverage
