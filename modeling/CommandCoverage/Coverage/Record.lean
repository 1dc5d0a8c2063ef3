import CommandCoverage.Decimal.Shortest
import CommandCoverage.Command.Basic

namespace CommandCoverage

structure Record where
  total : Nat := 0
  tested : Nat := 0
  deriving DecidableEq, Repr, Inhabited

namespace Record

def percentage (r : Record) : Float :=
  if r.total == 0 then 100 else 100 * Float.ofNat r.tested / Float.ofNat r.total

def rounded (r : Record) : Float := roundPlaces 2 r.percentage

def add (r : Record) (tested : Bool) : Record :=
  ⟨r.total + 1, if tested then r.tested + 1 else r.tested⟩

def addAll (r : Record) (marks : List Bool) : Record := marks.foldl add r

def plus (r s : Record) : Record := ⟨r.total + s.total, r.tested + s.tested⟩

end Record

inductive Category where
  | commands | subcommands | flags | options | overall
  deriving DecidableEq, Repr

namespace Category

def all : List Category := [commands, subcommands, flags, options, overall]

def key : Category → String
  | commands => "commands"
  | subcommands => "subcommands"
  | flags => "flags"
  | options => "options"
  | overall => "overall"

def label : Category → String
  | commands => "Commands"
  | subcommands => "Subcommands"
  | flags => "Flags"
  | options => "Options"
  | overall => "Overall"

end Category

structure Records where
  commands : Record := {}
  subcommands : Record := {}
  flags : Record := {}
  options : Record := {}
  deriving DecidableEq, Repr, Inhabited

namespace Records

def overall (r : Records) : Record :=
  r.commands.plus (r.subcommands.plus (r.flags.plus r.options))

def get (r : Records) : Category → Record
  | .commands => r.commands
  | .subcommands => r.subcommands
  | .flags => r.flags
  | .options => r.options
  | .overall => r.overall

def addCommand (r : Records) (path : List String) (c : Command) : Records :=
  let r := if path.isEmpty then { r with commands := r.commands.add c.tested }
    else { r with subcommands := r.subcommands.add c.tested }
  { r with
    flags := r.flags.addAll (c.flags.map (·.tested))
    options := r.options.addAll (c.options.map (·.tested)) }

def ofTree (root : Command) : Records :=
  root.nodes.foldl (fun r (path, c) ↦ r.addCommand path c) {}

end Records

end CommandCoverage
