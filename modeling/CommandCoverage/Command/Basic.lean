import CommandCoverage.Command.Arg
import CommandCoverage.Warning

namespace CommandCoverage

structure Command where
  name : String
  description : String := ""
  flags : List Arg := []
  options : List Arg := []
  positionals : List Arg := []
  subcommands : List Command := []
  sourceFile : Option String := none
  sourceLine : Option Nat := none
  importedFrom : Option String := none
  warnings : List Warning := []
  tested : Bool := false
  testFiles : List String := []
  deriving Inhabited, Repr

namespace Command

def args (c : Command) : List Arg := c.flags ++ c.options

def without (name : String) (as : List Arg) : List Arg := as.filter (·.name != name)

def addArg (c : Command) (a : Arg) : Command :=
  let flags := without a.name c.flags
  let options := without a.name c.options
  let positionals := without a.name c.positionals
  if a.isPositional then { c with flags, options, positionals := positionals ++ [a] }
  else if a.isFlag then { c with flags := flags ++ [a], options, positionals }
  else { c with flags, options := options ++ [a], positionals }

def putChild (child : Command) : List Command → List Command
  | [] => [child]
  | c :: cs => if c.name == child.name then child :: cs else c :: putChild child cs

/-- Registers a subcommand; the last registration of a name wins and keeps the first place. -/
def addSubcommand (c child : Command) : Command :=
  { c with subcommands := putChild child c.subcommands }

def child (c : Command) (name : String) : Option Command :=
  c.subcommands.find? (·.name == name)

/-- An argument fits a name that it has, or that it has as an alias when no argument has the name. -/
def fits (c : Command) (name : String) (a : Arg) : Bool :=
  if c.args.any (·.name == name) then a.name == name else a.aliases.contains name

def findArg (c : Command) (name : String) : Option Arg := c.args.find? (c.fits name)

def resolve : Command → List String → Option Command
  | c, [] => some c
  | c, p :: ps => (c.child p).bind (·.resolve ps)

/-- A flag or option that the command at the end of a path may use, its own before those of its
ancestors, with the path of its owner. -/
def lookup (name : String) : List String → Command → Option (List String × Arg)
  | [], c => (c.findArg name).map fun a ↦ ([], a)
  | p :: ps, c =>
    match (c.child p).bind (lookup name ps) with
    | some (owner, a) => some (p :: owner, a)
    | none => (c.findArg name).map fun a ↦ ([], a)

def modifyAt (f : Command → Command) : List String → Command → Command
  | [], c => f c
  | p :: ps, c =>
    { c with subcommands := c.subcommands.map fun d ↦
        if d.name == p then modifyAt f ps d else d }

mutual

def nodesFrom (path : List String) : Command → List (List String × Command)
  | ⟨n, d, fs, os, ps, cs, sf, sl, im, ws, t, tf⟩ =>
    (path, ⟨n, d, fs, os, ps, cs, sf, sl, im, ws, t, tf⟩) :: nodesFromAll path cs

def nodesFromAll (path : List String) : List Command → List (List String × Command)
  | [] => []
  | c :: cs => nodesFrom (path ++ [c.name]) c ++ nodesFromAll path cs

end

def nodes (c : Command) : List (List String × Command) := c.nodesFrom []

def fullName (root : Command) (path : List String) : String :=
  " ".intercalate (root.name :: path)

end Command

end CommandCoverage
