import CommandCoverage.Cache.Basic
import CommandCoverage.Files.Reader
import CommandCoverage.Script.File
import CommandCoverage.Script.Module
import CommandCoverage.Warning

namespace CommandCoverage

open Script

/-- What an analysis works on: the files, the largest size of a file, and the readings of the clock,
one after the other. -/
structure Workspace where
  files : FileTree
  maxFileSize : Nat
  clock : Nat → Float := fun _ ↦ 0

def Workspace.cacheKey (w : Workspace) (path content : String) : String :=
  CacheKey.of (w.files.absolute path) content

def Text.EncodeFault.failure (f : EncodeFault) : Failure :=
  .unexpected "UnicodeEncodeError" f.message

/-- The failure of asking a cache that is on for a file whose path comes from outside. No source
names a path with surrogates, so those that imports lead to are not looked at. -/
def Workspace.keyFailure? (w : Workspace) (cached : Bool) (path : String) : Option Failure :=
  if cached then
    (Text.encodeFault? w.files.surrogates (Path.normalize (w.files.absolute path))).map (·.failure)
  else none

/-- The parts of an analysis that give warnings as they go. -/
inductive Stage where
  | commands
  | tests
  | coverage
  deriving DecidableEq, Repr

structure Session where
  cache : ParseCache Float Node
  modules : Table Module := {}
  warnings : List Warning := []
  /-- The warnings as they were given, with the stage that gave them. -/
  notices : List (Stage × Warning) := []
  readings : Nat := 0

abbrev Analysis := StateM Session

/-- A part of an analysis that need not end; it gives nothing if it does not. -/
abbrev Unbounded := StateT Session Option

namespace Unbounded

def step {α : Type} (x : Analysis α) : Unbounded α := fun s ↦ some (x s)

def outcome {α : Type} [Inhabited α] (x : Unbounded α) : Analysis α := fun s ↦
  (x s).getD (default, s)

end Unbounded

namespace Analysis

def notify (stage : Stage) (w : Warning) : Analysis Unit :=
  modify fun s ↦ { s with notices := s.notices ++ [(stage, w)] }

def warn (w : Warning) : Analysis Unit := do
  modify fun s ↦ { s with warnings := s.warnings ++ [w] }
  notify .commands w

def readClock (w : Workspace) : Analysis Float :=
  modifyGet fun s ↦ (w.clock s.readings, { s with readings := s.readings + 1 })

/-- The tree of a source, from the cache if it is there. Faulty sources are not kept. Where in a
source an error stands is left out here: `FaultyNode.failure` says it of a tree with errors. -/
def parse (w : Workspace) (path content : String) : Analysis (Except Failure Node) := do
  let key := w.cacheKey path content
  let now ← readClock w
  let s ← get
  let (cached, cache) := s.cache.get now key
  set { s with cache }
  match cached with
  | some tree => return .ok tree
  | none =>
    match parseFile path content with
    | none => return .error (.unparseable path 1 1 "" "syntax error")
    | some tree =>
      let now ← readClock w
      modify fun s ↦ { s with cache := s.cache.set now key tree }
      return .ok tree

def parseGiven (w : Workspace) (path content : String) : Analysis (Except Failure Node) := do
  match w.keyFailure? (← get).cache.enabled path with
  | some f => return .error f
  | none => parse w path content

def load (w : Workspace) (path : String) : Analysis (Except Failure Module) := do
  let key := w.files.absolute path
  match (← get).modules.get? key with
  | some m => return .ok m
  | none =>
    match w.files.read w.maxFileSize path with
    | .error f => return .error f
    | .ok source =>
      match ← parse w path source.content with
      | .error f => return .error f
      | .ok root =>
        let m := Module.ofRoot path root
        modify fun s ↦ { s with modules := s.modules.set key m }
        return .ok m

/-- The module of an entry file, which needs the working directory unless its path is absolute. -/
def loadEntry (w : Workspace) (entry : String) : Analysis (Except Failure Module) := do
  if !Path.isAbsolute entry && w.files.here.isNone then
    let fault : SystemFault := ⟨2, "No such file or directory"⟩
    return .error (.unexpected fault.kind fault.message)
  else
    match w.files.read w.maxFileSize entry, w.keyFailure? (← get).cache.enabled entry with
    | .ok _, some f => return .error f
    | _, _ => load w entry

end Analysis

end CommandCoverage
