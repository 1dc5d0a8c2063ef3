import CommandCoverage.Discovery.Session
import CommandCoverage.Invocation.Basic
import CommandCoverage.Invocation.Tokens

namespace CommandCoverage

open Script

inductive FaultPolicy where
  | skip
  | stop
  deriving DecidableEq, Repr

structure Search where
  directory : String
  selection : FileTree.Selection
  runners : List String
  policy : FaultPolicy := .skip

structure FileFinding where
  invocations : List Invocation := []
  warnings : List Warning := []
  skipped : Bool := false

structure Finding where
  files : List String := []
  invocations : List Invocation := []
  warnings : List Warning := []
  skipped : List String := []
  deriving Inhabited

/-- The array of tokens that a call of a runner gets: its first argument, or the member `args` of
it. -/
def tokenArray (call : Node) : Option Node := do
  let first := (← call.arguments.head?).unwrap
  let array ← if first.kind == .object then (first.get? "args").map (·.unwrap) else some first
  guard (array.kind == .array)
  return array

def textsOf : List Value → Option (List String)
  | [] => some []
  | .text s :: vs => (textsOf vs).map (s :: ·)
  | _ :: _ => none

def tokensOf (array : Node) : Option (List String) :=
  match literalValue array with
  | some (.list vs) => textsOf vs
  | _ => none

def Invocation.ofTokens (root : Command) (file : String) (line : Nat) (tokens : List String) :
    Invocation :=
  let c := classify root tokens
  { path := c.path, flags := c.flags, options := c.options, file, line, arguments := c.positionals }

namespace FileFinding

def addCall (root : Command) (path : String) (f : FileFinding) (call : Node) : FileFinding :=
  match tokenArray call with
  | none => f
  | some array =>
    match tokensOf array with
    | none =>
      let text := String.ofList (array.text.toList.take 60)
      { f with warnings := f.warnings ++
          [⟨"dynamic_args", "runner arguments are not all string literals: " ++ text, some path,
            some call.line⟩] }
    | some tokens =>
      { f with invocations := f.invocations ++ [.ofTokens root path call.line tokens] }

def runnerCalls (runners : List String) (tree : Node) : List Node :=
  tree.walk.filter fun n ↦ n.kind == .call && n.calleeName.any runners.contains

def ofTree (root : Command) (runners : List String) (path : String) (tree : Node) : FileFinding :=
  (runnerCalls runners tree).foldl (addCall root path) {}

end FileFinding

namespace Analysis

def searchFile (w : Workspace) (s : Search) (root : Command) (path : String) :
    Analysis (Except Failure FileFinding) := do
  match w.files.read w.maxFileSize path with
  | .error f => return .error f
  | .ok source =>
    match ← parseGiven w path source.content with
    | .ok tree => return .ok (.ofTree root s.runners path tree)
    | .error (.unparseable _ line _ _ detail) =>
      match s.policy with
      | .stop =>
        return .error (.undiscoverable path
          ("test file could not be parsed: " ++ detail ++ " at line " ++ Nat.repr line) [path])
      | .skip =>
        let warning : Warning :=
          ⟨"test_parse_error",
            "skipped unparseable test file (" ++ detail ++ ", line " ++ Nat.repr line ++ ")",
            some path, some line⟩
        notify .tests warning
        return .ok { warnings := [warning], skipped := true }
    | .error f => return .error f

def searchFiles (w : Workspace) (s : Search) (root : Command) :
    List String → Analysis (Except Failure (List (String × FileFinding)))
  | [] => return .ok []
  | p :: ps => do
    match ← searchFile w s root p with
    | .error f => return .error f
    | .ok found => return (← searchFiles w s root ps).map ((p, found) :: ·)

end Analysis

namespace Finding

/-- The place of an invocation: its file in the list, then its line. -/
def placeOf (files : List String) (i : Invocation) : Nat × Nat := (files.idxOf i.file, i.line)

def isBefore (files : List String) (i j : Invocation) : Bool :=
  let (a, b) := placeOf files i
  let (c, d) := placeOf files j
  a < c || (a == c && b ≤ d)

/-- Everything found in the files, in the order of files and lines. -/
def ofFiles (found : List (String × FileFinding)) : Finding :=
  let files := found.map (·.1)
  { files
    invocations := (found.flatMap (·.2.invocations)).mergeSort (isBefore files)
    warnings := found.flatMap (·.2.warnings)
    skipped := (found.filter (·.2.skipped)).map (·.1) }

end Finding

namespace Analysis

/-- The invocations of a tree of commands that a search finds. -/
def searchTests (w : Workspace) (s : Search) (root : Command) :
    Analysis (Except Failure Finding) := do
  match w.files.listFiles s.selection s.directory with
  | .error f => return .error f
  | .ok files => return (← searchFiles w s root files).map .ofFiles

end Analysis

end CommandCoverage
