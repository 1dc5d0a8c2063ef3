import CommandCoverage.Text.Order

namespace CommandCoverage

structure Invocation where
  path : List String := []
  flags : List String := []
  options : List String := []
  file : String := ""
  line : Nat := 0
  arguments : List String := []
  deriving DecidableEq, Repr, Inhabited

namespace Invocation

def display (i : Invocation) : String :=
  let s := " ".intercalate i.path
  if s.isEmpty then "<root>" else s

def names (i : Invocation) : List String := Text.sortedSet (i.flags ++ i.options)

end Invocation

end CommandCoverage
