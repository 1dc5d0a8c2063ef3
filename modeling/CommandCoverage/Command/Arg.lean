import CommandCoverage.Script.Member

namespace CommandCoverage

structure Arg where
  name : String
  type : String := "string"
  description : String := ""
  default : Value := .null
  required : Bool := false
  aliases : List String := []
  tested : Bool := false
  deriving Repr, Inhabited

namespace Arg

def isFlag (a : Arg) : Bool := a.type == "boolean"

def isPositional (a : Arg) : Bool := a.type == "positional"

def aliasesOf : Option Value → List String
  | some (.text s) => [s]
  | some (.list vs) => vs.filterMap fun
    | .text s => some s
    | _ => none
  | _ => []

open Script in
def ofObject (name : String) (obj : Node) : Arg :=
  let literal (key : String) : Option Value := (obj.get? key).bind literalValue
  let default := literal "default"
  let type :=
    match ((obj.get? "type").bind stringValue).filter (!·.isEmpty), default with
    | some t, _ => t
    | none, some (.bool _) => "boolean"
    | none, _ => "string"
  { name, type
    description := ((obj.get? "description").bind stringValue).getD ""
    default := default.getD .null
    required := match literal "required" with
      | some (.bool b) => b
      | _ => false
    aliases := aliasesOf (literal "alias") }

end Arg

end CommandCoverage
