import CommandCoverage.Script.Module

namespace CommandCoverage

open Script

inductive Obstacle where
  | missingValue
  | member (text : String)
  | computedPath
  | otherCall (callee : Option String)
  | unsupported (text : String)
  deriving DecidableEq, Repr

def Obstacle.reason : Obstacle → String
  | missingValue => "missing value"
  | member text => "cannot resolve '" ++ text ++ "'"
  | computedPath => "dynamic import with a computed path"
  | otherCall callee => "call to '" ++ (callee.filter (!·.isEmpty)).getD "?" ++
      "' is not a command definition"
  | unsupported text => "unsupported value '" ++ String.ofList (text.toList.take 40) ++ "'"

inductive Source where
  | inline (definition : Node)
  | imported (i : Import) (fromFile : String)
  | bound (name : String)
  | unresolved (why : Obstacle) (line : Nat)

namespace Script.Node

mutual

def height : Node → Nat
  | ⟨_, _, _, _, _, _, cs⟩ => heightAll cs + 1

def heightAll : List Node → Nat
  | [] => 0
  | n :: ns => max n.height (heightAll ns)

end

end Script.Node

namespace Source

def objectArgument (call : Node) : Option Node :=
  (call.arguments.head?.map (·.unwrap)).filter (·.kind == .object)

def awaited (call : Node) : Option Node := do
  let f ← (call.part .callee).map (·.unwrap)
  guard (f.kind == .member)
  let property ← f.part .property
  guard (property.text == "then")
  f.part .object

def ofNode (m : Module) : Nat → Node → Source
  | 0, _ => .unresolved .missingValue 0
  | fuel + 1, n =>
    let n := n.unwrap
    match n.kind with
    | .object => .inline n
    | .identifier | .shorthand =>
      match m.imports.get? n.text with
      | some i => .imported i m.path
      | none => .bound n.text
    | .member =>
      let namespace_ := do
        let o ← (n.part .object).map (·.unwrap)
        guard (o.kind == .identifier)
        let i ← m.imports.get? o.text
        guard (i.name == "*")
        return i.specifier
      match namespace_, n.part .property with
      | some specifier, some property => .imported ⟨specifier, property.text⟩ m.path
      | _, _ => .unresolved (.member n.text) n.line
    | .arrow | .function | .method =>
      match n.returned with
      | some r => ofNode m fuel r
      | none => .unresolved .missingValue 0
    | .call =>
      if ((n.part .callee).map (·.unwrap)).any (·.kind == .importKeyword) then
        match n.arguments.head?.bind stringValue with
        | some specifier => .imported ⟨specifier, "default"⟩ m.path
        | none => .unresolved .computedPath n.line
      else
        match awaited n with
        | some target =>
          match ofNode m fuel target, n.arguments.head?.bind (·.picked) with
          | .imported i file, some name => .imported ⟨i.specifier, name⟩ file
          | inner, _ => inner
        | none =>
          match objectArgument n with
          | some obj => .inline obj
          | none => .unresolved (.otherCall n.calleeName) n.line
    | _ => .unresolved (.unsupported n.text) n.line

end Source

/-- Where a value of a module says that a definition comes from. Functions stand for what they
return, promises for what they bring. -/
def Script.Module.classify (m : Module) (value : Option Node) : Source :=
  match value with
  | none => .unresolved .missingValue 0
  | some n => Source.ofNode m (n.height + 1) n

end CommandCoverage
