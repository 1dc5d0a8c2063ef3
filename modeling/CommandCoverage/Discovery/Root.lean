import CommandCoverage.Discovery.Build

namespace CommandCoverage

open Script

namespace Analysis

def mainRunners : List String := ["runMain", "runCommand", "createMain"]

def calls (m : Module) : List Node := m.root.walk.filter (·.kind == .call)

def handedToRunner (w : Workspace) (m : Module) : Analysis (Option Located) :=
  firstSome (fun (arg : Node) ↦ do
    return (← resolve w (m.classify (some arg)) m).toOption)
    ((calls m).filter (fun c ↦ c.calleeName.any mainRunners.contains) |>.filterMap
      (·.arguments.head?))

def writtenDefinitions (m : Module) : List Node :=
  (calls m).filterMap fun c ↦ (Source.objectArgument c).filter (·.looksLikeCommand)

def isInside (n other : Node) : Bool :=
  (other.start != n.start || other.stop != n.stop) &&
    other.start ≤ n.start && n.stop ≤ other.stop

def registeredBy (w : Workspace) (m : Module) (d : Node) : Analysis (List Nat) := do
  match m.object (d.get? "subCommands") with
  | none => return []
  | some subs =>
    let values := subs.members.filter fun s ↦ s.form == .pair || s.form == .shorthand
    values.foldlM (fun places s ↦ do
      match ← resolve w (m.classify (some s.node)) m true with
      | .ok l => return places ++ [l.object.start]
      | .error _ => return places) []

/-- The first outermost definition that no other registers, else the first outermost. -/
def fallbackRoot (w : Workspace) (m : Module) : Analysis (Option Located) := do
  let all := writtenDefinitions m
  let outer := all.filter fun d ↦ !all.any (isInside d)
  let registered := (← outer.mapM (registeredBy w m)).flatten
  let free := outer.find? fun d ↦ !registered.contains d.start
  return (free <|> outer.head?).map (⟨·, m⟩)

def findRoot (w : Workspace) (m : Module) : Analysis (Option Located) := do
  match ← handedToRunner w m with
  | some l => return some l
  | none =>
    let exported ← if m.exports.contains "default" then
      pure (← resolveExport w "default" m).toOption else pure none
    match exported with
    | some l => return some l
    | none => fallbackRoot w m

/-- The tree of commands that an entry file defines. -/
def discover (w : Workspace) (entry : String) : Analysis (Except Failure Command) := do
  modify fun s ↦ { s with modules := {}, warnings := [] }
  match ← loadEntry w entry with
  | .error f => return .error f
  | .ok m =>
    match ← findRoot w m with
    | none =>
      return .error (.shapeless entry "Could not identify the main command"
        (some ("No defineCommand(\x7b meta: \x7b name \x7d \x7d) call with args/subCommands/run " ++
          "was found")))
    | some root =>
      if ((root.owner.memberText root.object "meta" "name").getD "").isEmpty then
        return .error (.shapeless entry "Main command has no static meta.name"
          (some ("The definition at " ++ root.owner.path ++ ":" ++ Nat.repr root.object.line ++
            " sets meta.name to a value that is not a string literal")))
      else
        return .ok (fromElsewhere root m (← (Unbounded.build w [] (.definition "" root)).outcome))

end Analysis

end CommandCoverage
