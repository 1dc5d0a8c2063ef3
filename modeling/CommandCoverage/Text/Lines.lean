namespace CommandCoverage.Text

def lines (s : String) : List String := (s.toList.splitOn '\n').map String.ofList

def unlines (lines : List String) : String := "\n".intercalate lines

def indentation (level : Nat) : String := "".pushn ' ' (2 * level)

def numbered (items : List String) : List String :=
  items.zipIdx.map fun (s, i) ↦ "  " ++ Nat.repr (i + 1) ++ ". " ++ s

end CommandCoverage.Text
