import CommandCoverage.Failure
import CommandCoverage.Script.Traversal

namespace CommandCoverage.Script

/-- A node of a tree that may hold errors. Rows and columns count from zero. -/
structure FaultyNode where
  type : String := "x"
  isError : Bool := false
  isMissing : Bool := false
  hasError : Bool := false
  row : Nat := 0
  column : Nat := 0
  text : String := ""
  children : List FaultyNode := []
  deriving Inhabited, Repr

namespace FaultyNode

def isFault (n : FaultyNode) : Bool := n.isError || n.isMissing

instance : Branching FaultyNode where
  children := children
  sizeOf_children_lt := by
    intro n
    obtain ⟨t, e, m, h, r, c, s, cs⟩ := n
    simp only [mk.sizeOf_spec]
    omega

/-- The first fault, a node before its children. Nodes without errors are passed over as a
whole. -/
def firstFault (root : FaultyNode) : Option FaultyNode :=
  Branching.searchFrom isFault hasError [root]

def snippet (n : FaultyNode) : String :=
  String.ofList ((Text.lines (Text.stripped n.text)).headD "" |>.toList.take 40)

def detail (n : FaultyNode) : String :=
  if n.isMissing then "missing '" ++ n.type ++ "'"
  else if n.snippet.isEmpty then "unexpected token"
  else "unexpected '" ++ n.snippet ++ "'"

/-- The failure that a faulty tree of a source means. -/
def failure (root : FaultyNode) (source path : String) : Failure :=
  let lines := Text.lines source
  match root.firstFault with
  | none => .unparseable path 1 1 (lines.headD "") "syntax error"
  | some n => .unparseable path (n.row + 1) (n.column + 1) (lines.getD n.row "") n.detail

end FaultyNode

end CommandCoverage.Script
