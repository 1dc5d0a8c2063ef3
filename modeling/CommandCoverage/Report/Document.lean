import CommandCoverage.Document.Json
import CommandCoverage.Document.Yaml.Block
import CommandCoverage.Report.Basic

namespace CommandCoverage

namespace Document

def ofRecord (r : Record) : Document :=
  fields [("total", nat r.total), ("tested", nat r.tested), ("percentage", number r.rounded)]

def ofRecords (r : Records) : Document :=
  fields (Category.all.map fun c ↦ (c.key, ofRecord (r.get c)))

def ofArg (a : Arg) : Document :=
  fields [("name", text a.name), ("type", text a.type), ("description", text a.description),
    ("tested", bool a.tested), ("aliases", ofTexts a.aliases)]

def ofArgs (as : List Arg) : Document := list (as.map ofArg)

def declared (c : Command) : List (String × Document) :=
  [("flags", ofArgs c.flags), ("options", ofArgs c.options),
    ("sourceFile", ofOption text c.sourceFile), ("sourceLine", ofOption nat c.sourceLine),
    ("importedFrom", ofOption text c.importedFrom)]

def named (path : String) (c : Command) : List (String × Document) :=
  [("name", text c.name), ("path", text path), ("description", text c.description)]

def ofCommand (path : String) (c : Command) : Document :=
  fields (named path c ++ [("tested", bool c.tested), ("testFiles", ofTexts c.testFiles)] ++
    declared c)

def ofDiscovered (path : String) (c : Command) : Document := fields (named path c ++ declared c)

def ofCommands (f : String → Command → Document) (t : Table Command) : Document :=
  fields (t.entries.map fun (k, c) ↦ (k, f k c))

def ofRecommendation (r : Recommendation) : Document :=
  fields [("type", text r.gap.label), ("priority", text r.priority.word), ("target", text r.target),
    ("message", text r.message), ("example", ofOption text r.example_)]

def ofRecommendations (rs : List Recommendation) : Document := list (rs.map ofRecommendation)

def ofWarning (w : Warning) : Document :=
  fields [("kind", text w.kind), ("message", text w.message), ("file", ofOption text w.file),
    ("line", ofOption nat w.line)]

def ofWarnings (ws : List Warning) : Document := list (ws.map ofWarning)

def ofOrigin (o : Origin) : Document :=
  fields [("analyzedAt", text o.analyzedAt), ("cliPath", text o.cliPath),
    ("testDir", text o.testDir), ("analysisMethod", text o.method),
    ("totalTestFiles", nat o.testFiles), ("totalPatterns", nat o.invocations)]

end Document

open Document

def Report.document (r : Report) : Document :=
  fields [("summary", ofRecords r.records), ("commands", ofCommands ofCommand r.commands),
    ("recommendations", ofRecommendations r.recommendations),
    ("warnings", ofWarnings r.warnings), ("metadata", ofOrigin r.origin)]

def Report.statisticsDocument (r : Report) (top : Int) : Document :=
  fields [("summary", ofRecords r.records), ("topRecommendations", ofRecommendations (r.top top)),
    ("metadata", ofOrigin r.origin)]

def Recommendation.document (priority : String) (rs : List Recommendation) : Document :=
  fields [("priority", text priority), ("recommendations", ofRecommendations rs)]

def Command.structureDocument (root : Command) (cliPath : String) (ws : List Warning) : Document :=
  fields [("cliPath", text cliPath), ("root", text root.name),
    ("commands", ofCommands ofDiscovered (Report.commandsOf root)), ("warnings", ofWarnings ws)]

end CommandCoverage
