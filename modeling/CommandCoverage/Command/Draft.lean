import CommandCoverage.Command.Basic

namespace CommandCoverage

structure Draft where
  tree : Command
  /-- The paths of the commands whose links to their parents are cut. -/
  cuts : List (List String) := []

namespace Draft

def resolve (d : Draft) (path : List String) : Option Command := d.tree.resolve path

def hidden (d : Draft) (path : List String) : Nat :=
  ((d.cuts.filter (·.isPrefixOf path)).map List.length).foldl max 0

def seen (d : Draft) (path : List String) : Command × List String :=
  let k := d.hidden path
  ((d.resolve (path.take k)).getD d.tree, path.drop k)

def fullName (d : Draft) (path : List String) : String :=
  let (root, rest) := d.seen path
  root.fullName rest

/-- A flag or option that a command may use, with the path of its owner. -/
def lookup (d : Draft) (path : List String) (name : String) : Option (List String × Arg) :=
  let (root, rest) := d.seen path
  (root.lookup name rest).map fun (owner, a) ↦ (path.take (d.hidden path) ++ owner, a)

def addArg (d : Draft) (path : List String) (a : Arg) : Draft :=
  { d with tree := d.tree.modifyAt (·.addArg a) path }

/-- Registers a subcommand, linked, in the place of an earlier one with all below it. -/
def addSubcommand (d : Draft) (path : List String) (child : Command) : Draft where
  tree := d.tree.modifyAt (·.addSubcommand child) path
  cuts := d.cuts.filter fun c ↦ !(path ++ [child.name]).isPrefixOf c

def detach (d : Draft) (path : List String) : Draft :=
  if path.isEmpty then d else { d with cuts := path :: d.cuts }

end Draft

end CommandCoverage
