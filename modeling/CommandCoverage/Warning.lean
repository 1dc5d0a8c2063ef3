namespace CommandCoverage

structure Warning where
  kind : String
  message : String
  file : Option String := none
  line : Option Nat := none
  deriving DecidableEq, Repr, Inhabited

namespace Warning

def placeText (file : Option String) (line : Option Nat) : String :=
  match file.filter (!·.isEmpty), line.filter (· != 0) with
  | none, _ => ""
  | some f, none => " (" ++ f ++ ")"
  | some f, some l => " (" ++ f ++ ":" ++ Nat.repr l ++ ")"

def text (w : Warning) : String :=
  "[" ++ w.kind ++ "] " ++ w.message ++ placeText w.file w.line

end Warning

end CommandCoverage
