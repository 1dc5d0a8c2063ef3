import CommandCoverage.Command.Basic
import CommandCoverage.Discovery.Spread

namespace CommandCoverage

open Script

/-- What in a definition cannot be read off. Most name the command. -/
inductive Anomaly where
  | argsNotStatic (command : String)
  | spreadNotStatic (text command : String)
  | computedArg (command : String)
  | subcommandsNotStatic (command : String)
  | subcommandNotStatic (command : String)
  | registeredTwice (key command : String)
  | unresolvedSubcommand (key : String) (why : Unresolved)
  | selfContaining (key : String)
  deriving DecidableEq, Repr

namespace Anomaly

def kind : Anomaly → String
  | argsNotStatic _ | spreadNotStatic .. | computedArg _ => "dynamic_args"
  | subcommandsNotStatic _ | subcommandNotStatic _ => "unresolved_import"
  | registeredTwice .. => "duplicate_subcommand"
  | unresolvedSubcommand _ why => why.kind
  | selfContaining _ => "import_cycle"

def message : Anomaly → String
  | argsNotStatic command => "args of '" ++ command ++ "' are not a static object"
  | spreadNotStatic text command => "cannot expand '..." ++ text ++ "' in args of '" ++ command ++ "'"
  | computedArg command => "computed arg name in '" ++ command ++ "'"
  | subcommandsNotStatic command => "subCommands of '" ++ command ++ "' are not a static object"
  | subcommandNotStatic command =>
    "cannot expand dynamic subCommands entry in '" ++ command ++ "'"
  | registeredTwice key command =>
    "subcommand '" ++ key ++ "' of '" ++ (if command.isEmpty then "<root>" else command) ++
      "' registered twice; last registration wins"
  | unresolvedSubcommand key why => "subcommand '" ++ key ++ "': " ++ why.message
  | selfContaining key => "subcommand '" ++ key ++ "' contains itself"

def at_ (a : Anomaly) (m : Module) (n : Node) : Warning :=
  ⟨a.kind, a.message, some m.path, some n.line⟩

end Anomaly

def Script.Module.memberText (m : Module) (obj : Node) (key name : String) : Option String :=
  ((m.object (obj.get? key)).bind (·.get? name)).bind stringValue

namespace Analysis

def warnAbout (c : Command) (w : Warning) : Analysis Command := do
  warn w
  return { c with warnings := c.warnings ++ [w] }

def declaredArg (m : Module) (key : String) (n : Node) : Arg :=
  match m.object (some n) with
  | some spec => .ofObject key spec
  | none => { name := key }

/-- The object literal to put in place of a spread, unless it is being expanded already. -/
def expansion (w : Workspace) (seen : List Identity) (n : Node) (m : Module) :
    Analysis (Option Located) := do
  return (← spread w n m).filter fun l ↦ !seen.contains l.identity

end Analysis

namespace Workspace

open Analysis Unbounded

/-- Declares members of an object literal, with the spreads among them expanded, as arguments of a
command. `seen` are the objects being expanded. -/
def addArgs (w : Workspace) (seen : List Identity) (m : Module) :
    List Member → Command → Unbounded Command
  | [], c => return c
  | member :: members, c => do
    let c ← match member.form, member.name with
      | .spread, _ => do
        match ← step (expansion w seen member.node m) with
        | some l => w |>.addArgs (l.identity :: seen) l.owner l.object.members c
        | none =>
          step (warnAbout c ((Anomaly.spreadNotStatic member.node.text c.name).at_ m member.node))
      | _, none => step (warnAbout c ((Anomaly.computedArg c.name).at_ m member.node))
      | _, some key => pure (c.addArg (declaredArg m key member.node))
    w |>.addArgs seen m members c
partial_fixpoint

end Workspace

namespace Unbounded

open Analysis

export Workspace (addArgs)

def addDeclaredArgs (w : Workspace) (d : Located) (c : Command) : Unbounded Command :=
  match d.object.get? "args" with
  | none => return c
  | some value =>
    match d.owner.object (some value) with
    | none => step (warnAbout c ((Anomaly.argsNotStatic c.name).at_ d.owner value))
    | some args => addArgs w [⟨d.owner.path, args.start⟩] d.owner args.members c

end Unbounded

namespace Analysis

/-- What a command takes from its definition apart from arguments and subcommands. A name from
outside wins over the one in the definition. -/
def heading (name : String) (d : Located) : Command :=
  let text (key : String) : String := (d.owner.memberText d.object "meta" key).getD ""
  { name := if name.isEmpty then text "name" else name
    description := text "description"
    sourceFile := some d.owner.path
    sourceLine := some d.object.line }

def importedFrom : Source → Option String
  | .imported i _ => some i.specifier
  | _ => none

/-- A command notes the file of its definition when a command of another module registers it. -/
def fromElsewhere (l : Located) (m : Module) (c : Command) : Command :=
  if l.owner.path == m.path then c else { c with importedFrom := some l.owner.path }

def unresolvedLeaf (key : String) (m : Module) (n : Node) : Command :=
  { name := key, sourceFile := some m.path, sourceLine := some n.line
    importedFrom := importedFrom (m.classify (some n)) }

def cyclicLeaf (key : String) (l : Located) : Command :=
  { name := key, sourceFile := some l.owner.path, sourceLine := some l.object.line }

def register (m : Module) (n : Node) (key : String) (c child : Command) : Analysis Command := do
  if (c.child child.name).isSome then
    let child ← warnAbout child ((Anomaly.registeredTwice key c.name).at_ m n)
    return c.addSubcommand child
  else return c.addSubcommand child

end Analysis

/-- What a command is built from: a definition, or entries of its subcommands that are still to be
registered. -/
inductive Task where
  | definition (name : String) (d : Located)
  | entries (members : List Member) (m : Module) (c : Command)

namespace Workspace

open Analysis Unbounded

/-- The command that a task makes. `ancestors` are the definitions above; one of them among the
subcommands becomes a leaf. -/
def build (w : Workspace) (ancestors : List Identity) (t : Task) : Unbounded Command :=
  match t with
  | .definition name d => do
    let c ← addDeclaredArgs w d (heading name d)
    match d.object.get? "subCommands" with
    | none => return c
    | some value =>
      match d.owner.object (some value) with
      | none => step (warnAbout c ((Anomaly.subcommandsNotStatic c.name).at_ d.owner value))
      | some subs => w |>.build (d.identity :: ancestors) (.entries subs.members d.owner c)
  | .entries [] _ c => return c
  | .entries (member :: members) m c => do
    let n := member.node
    match member.name with
    | none =>
      let c ← step (warnAbout c ((Anomaly.subcommandNotStatic c.name).at_ m n))
      w |>.build ancestors (.entries members m c)
    | some key =>
      let child ← do
        match ← follow w false [] (.source (m.classify (some n)) m) with
        | .error why =>
          step (warnAbout (unresolvedLeaf key m n) ((Anomaly.unresolvedSubcommand key why).at_ m n))
        | .ok l =>
          if ancestors.contains l.identity then
            step (warnAbout (cyclicLeaf key l) ((Anomaly.selfContaining key).at_ m n))
          else fromElsewhere l m <$> (w |>.build ancestors (.definition key l))
      let c ← step (register m n key c child)
      w |>.build ancestors (.entries members m c)
partial_fixpoint

end Workspace

namespace Unbounded

export Workspace (build)

end Unbounded

end CommandCoverage
