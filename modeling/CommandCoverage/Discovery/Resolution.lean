import CommandCoverage.Discovery.Session
import CommandCoverage.Discovery.Source

namespace CommandCoverage

open Script

inductive Unresolved where
  | obstacle (why : Obstacle)
  | notDefinition
  | selfReference (name : String)
  | undefinedName (name path : String)
  | otherFile (specifier : String)
  | missingModule (specifier fromFile : String)
  | importCycle (path name : String)
  | unloadable (f : Failure)
  | missingExport (path name : String)
  deriving DecidableEq, Repr

namespace Unresolved

def kind : Unresolved → String
  | selfReference _ | importCycle .. => "import_cycle"
  | _ => "unresolved_import"

def message : Unresolved → String
  | obstacle why => why.reason
  | notDefinition => "object is not a command definition"
  | selfReference name => "'" ++ name ++ "' refers to itself"
  | undefinedName name path => "'" ++ name ++ "' is not defined in " ++ path
  | otherFile specifier => "'" ++ specifier ++ "' is in another file"
  | missingModule specifier fromFile =>
    "cannot resolve module '" ++ specifier ++ "' from " ++ fromFile
  | importCycle path name => "import cycle through " ++ path ++ " (" ++ name ++ ")"
  | unloadable f => (f.message.splitOn "\n").headD ""
  | missingExport path name => path ++ " has no export named '" ++ name ++ "'"

end Unresolved

/-- An object literal in the module that holds it. -/
structure Located where
  object : Node
  owner : Module

structure Identity where
  path : String
  start : Nat
  deriving DecidableEq, Repr

def Located.identity (l : Located) : Identity := ⟨l.owner.path, l.object.start⟩

inductive Passed where
  | name (path name : String)
  | exported (path name : String)
  deriving DecidableEq, Repr

/-- What is to be resolved: a source in a module, an export of a module, or a name in the first of
some modules all of whose exports the module passes on. -/
inductive Query where
  | source (s : Source) (m : Module)
  | exported (name : String) (m : Module)
  | starred (name : String) (specifiers : List String) (m : Module)

namespace Workspace

open Unbounded

/-- Follows a query to a definition. What was passed on the way is not passed again. -/
def follow (w : Workspace) (localOnly : Bool) (passed : List Passed) (q : Query) :
    Unbounded (Except Unresolved Located) :=
  match q with
  | .source (.unresolved why _) _ => return .error (.obstacle why)
  | .source (.inline obj) m =>
    return if obj.looksLikeCommand then .ok ⟨obj, m⟩ else .error .notDefinition
  | .source (.bound name) m =>
    match m.imports.get? name with
    | some i => w |>.follow localOnly passed (.source (.imported i m.path) m)
    | none =>
      let mark := Passed.name m.path name
      if passed.contains mark then return .error (.selfReference name)
      else match m.bindings.get? name with
        | none => return .error (.undefinedName name m.path)
        | some v => w |>.follow localOnly (mark :: passed) (.source (m.classify (some v)) m)
  | .source (.imported i fromFile) _ =>
    if localOnly then return .error (.otherFile i.specifier)
    else match w.files.resolveModule i.specifier fromFile with
      | none => return .error (.missingModule i.specifier fromFile)
      | some path =>
        let mark := Passed.exported (w.files.absolute path) i.name
        if passed.contains mark then return .error (.importCycle path i.name)
        else do match ← step (Analysis.load w path) with
          | .error f => return .error (.unloadable f)
          | .ok target => w |>.follow localOnly (mark :: passed) (.exported i.name target)
  | .exported name m =>
    match m.exports.get? name with
    | some (.passed i) => w |>.follow localOnly passed (.source (.imported i m.path) m)
    | some (.bound name) => w |>.follow localOnly passed (.source (.bound name) m)
    | some (.value v) => w |>.follow localOnly passed (.source (m.classify (some v)) m)
    | none => w |>.follow localOnly passed (.starred name m.stars m)
  | .starred name [] m => return .error (.missingExport m.path name)
  | .starred name (specifier :: specifiers) m => do
    match ← w |>.follow localOnly passed (.source (.imported ⟨specifier, name⟩ m.path) m) with
    | .ok l => return .ok l
    | .error _ => w |>.follow localOnly passed (.starred name specifiers m)
partial_fixpoint

end Workspace

namespace Unbounded

export Workspace (follow)

end Unbounded

namespace Analysis

instance : Inhabited (Except Unresolved Located) := ⟨.error .notDefinition⟩

/-- The definition that a source in a module denotes. -/
def resolve (w : Workspace) (s : Source) (m : Module) (localOnly : Bool := false) :
    Analysis (Except Unresolved Located) :=
  (Unbounded.follow w localOnly [] (.source s m)).outcome

def resolveExport (w : Workspace) (name : String) (m : Module) :
    Analysis (Except Unresolved Located) :=
  (Unbounded.follow w false [] (.exported name m)).outcome

end Analysis

end CommandCoverage
