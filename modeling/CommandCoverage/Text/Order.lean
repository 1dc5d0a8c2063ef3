namespace CommandCoverage.Text

def sorted (ss : List String) : List String := ss.mergeSort fun a b ↦ decide (a ≤ b)

def withoutRepeats : List String → List String
  | [] => []
  | [a] => [a]
  | a :: b :: r => if a == b then withoutRepeats (b :: r) else a :: withoutRepeats (b :: r)

def sortedSet (ss : List String) : List String := withoutRepeats (sorted ss)

end CommandCoverage.Text
