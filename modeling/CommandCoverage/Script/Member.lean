import CommandCoverage.Script.Literal

namespace CommandCoverage.Script

inductive MemberForm where
  | pair | shorthand | spread | method
  deriving DecidableEq, Repr

/-- A member of an object literal. The node is the value of a pair, the name of a shorthand, what
is spread, or the method. -/
structure Member where
  form : MemberForm
  name : Option String
  node : Node

def keyName (key : Node) : Option String :=
  match key.kind with
  | .propertyName | .identifier | .privateName | .number => some key.text
  | .string | .template => stringValue key
  | _ => none

namespace Node

/-- The member that a child of an object literal is; a child without a value is none. -/
def member? (n : Node) : Option Member :=
  match n.kind with
  | .pair => (n.part .value).map fun v ↦ ⟨.pair, (n.part .key).bind keyName, v⟩
  | .shorthand => some ⟨.shorthand, some n.text, n⟩
  | .spread => some ⟨.spread, none, n.children.head?.getD n⟩
  | .method => some ⟨.method, (n.part .name).map (·.text), n⟩
  | _ => none

def members (n : Node) : List Member := n.children.filterMap member?

def get? (n : Node) (name : String) : Option Node :=
  ((n.members.filter fun m ↦ m.form != .spread && m.name == some name).getLast?).map (·.node)

def commandKeys : List String := ["meta", "args", "subCommands", "run", "setup", "cleanup"]

def looksLikeCommand (n : Node) : Bool :=
  n.members.any fun m ↦ m.name.any commandKeys.contains

def arguments (n : Node) : List Node := ((n.part .arguments).map parts).getD []

/-- The simple name of what is called, `foo` for `foo()` and for `a.b.foo()`. -/
def calleeName (n : Node) : Option String := do
  let f ← (n.part .callee).map unwrap
  match f.kind with
  | .identifier => some f.text
  | .member => (f.part .property).map (·.text)
  | _ => none

def isFunction (n : Node) : Bool := n.kind == .arrow || n.kind == .function

/-- The expression that a function gives: its body, or what the only return of its block says. -/
def returned (n : Node) : Option Node := do
  let body ← n.part .body
  if body.kind != .block then return body
  match body.children.filter (·.kind == .returnStatement) with
  | [r] => r.children.head?
  | _ => none

def picked (n : Node) : Option String := do
  let f := n.unwrap
  guard f.isFunction
  let body := (← f.returned).unwrap
  match body.kind with
  | .member => (body.part .property).map (·.text)
  | .subscript => (body.part .index).bind stringValue
  | _ => none

end Node

end CommandCoverage.Script
