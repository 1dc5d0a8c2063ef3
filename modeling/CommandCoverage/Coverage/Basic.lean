import CommandCoverage.Coverage.Record
import CommandCoverage.Invocation.Basic

namespace CommandCoverage

/-- A marked tree, the invocations that lead to no command, and the anomalies found. -/
structure Coverage where
  tree : Command
  orphans : List Invocation := []
  warnings : List Warning := []
  deriving Inhabited, Repr

namespace Coverage

def records (c : Coverage) : Records := .ofTree c.tree

def runBy (file : String) (c : Command) : Command :=
  { c with
    tested := true
    testFiles := if c.testFiles.contains file then c.testFiles else c.testFiles ++ [file] }

def markNamed (name : String) (as : List Arg) : List Arg :=
  as.map fun a ↦ if a.name == name then { a with tested := true } else a

def markArg (name : String) (c : Command) : Command :=
  match c.flags.find? (c.fits name), c.options.find? (c.fits name) with
  | some a, _ => { c with flags := markNamed a.name c.flags }
  | none, some a => { c with options := markNamed a.name c.options }
  | none, none => c

def unknownFlag (i : Invocation) (name : String) : Warning where
  kind := "unknown_flag"
  message := "'--" ++ name ++ "' is not declared by '" ++ i.display ++ "' or its parents"
  file := i.file
  line := i.line

def orphanPattern (root : Command) (i : Invocation) : Warning where
  kind := "orphan_pattern"
  message := "test invokes '" ++ i.display ++ "', which is not a command of '" ++ root.name ++ "'"
  file := i.file
  line := i.line

def useAt (i : Invocation) (c : Coverage) (name : String) : Coverage :=
  match c.tree.lookup name i.path with
  | some (owner, _) => { c with tree := c.tree.modifyAt (markArg name) owner }
  | none => { c with warnings := c.warnings ++ [unknownFlag i name] }

def add (c : Coverage) (i : Invocation) : Coverage :=
  match c.tree.resolve i.path with
  | none =>
    { c with
      orphans := c.orphans ++ [i]
      warnings := c.warnings ++ [orphanPattern c.tree i] }
  | some _ =>
    i.names.foldl (useAt i) { c with tree := c.tree.modifyAt (runBy i.file) i.path }

/-- Marks a tree with the invocations, one after the other. -/
def compute (root : Command) (is : List Invocation) : Coverage :=
  is.foldl add { tree := root }

end Coverage

inductive ItemKind where
  | command | subcommand | flag | option
  deriving DecidableEq, Repr, Inhabited

def ItemKind.label : ItemKind → String
  | command => "command"
  | subcommand => "subcommand"
  | flag => "flag"
  | option => "option"

/-- A command, or an argument of it, that no test uses. -/
structure Untested where
  kind : ItemKind
  fullName : String
  path : List String
  arg : Option Arg := none
  deriving Repr, Inhabited

namespace Untested

def target (u : Untested) : String :=
  match u.arg with
  | none => u.fullName
  | some a => u.fullName ++ " --" ++ a.name

/-- The untested items of one command: itself, then its flags, then its options. -/
def ofCommand (root : Command) (path : List String) (c : Command) : List Untested :=
  let fullName := root.fullName path
  let own : List Untested :=
    if c.tested then []
    else [{ kind := if path.isEmpty then .command else .subcommand, fullName, path }]
  let ofArgs (kind : ItemKind) (as : List Arg) : List Untested :=
    (as.filter (!·.tested)).map fun a ↦ { kind, fullName, path, arg := some a }
  own ++ ofArgs .flag c.flags ++ ofArgs .option c.options

def ofTree (root : Command) : List Untested :=
  root.nodes.flatMap fun (path, c) ↦ ofCommand root path c

end Untested

end CommandCoverage
