import CommandCoverage.Script.Member
import CommandCoverage.Table

namespace CommandCoverage.Script

/-- An export of another module, `*` being all of them. -/
structure Import where
  specifier : String
  name : String
  deriving DecidableEq, Repr

inductive Export where
  | bound (name : String)
  | value (node : Node)
  | passed (i : Import)

structure Module where
  path : String
  root : Node
  bindings : Table Node := {}
  imports : Table Import := {}
  exports : Table Export := {}
  stars : List String := []

namespace Module

def boundNames (decl : Node) : List (String × Node) :=
  decl.children.filterMap fun d ↦ do
    guard (d.kind == .declarator)
    let name ← d.part .name
    guard (name.kind == .identifier)
    return (name.text, ← d.part .value)

def addBindings (m : Module) (bs : List (String × Node)) : Module :=
  { m with bindings := bs.foldl (fun t (n, v) ↦ t.set n v) m.bindings }

def addExports (m : Module) (es : List (String × Export)) : Module :=
  { m with exports := es.foldl (fun t (n, e) ↦ t.set n e) m.exports }

def decodedName (n : Node) : String :=
  if n.kind == .string then (stringValue n).getD "" else n.text

def importsOf (specifier : String) (part : Node) : List (String × Import) :=
  match part.kind with
  | .identifier => [(part.text, ⟨specifier, "default"⟩)]
  | .namespaceImport =>
    (part.children.filter (·.kind == .identifier)).map fun i ↦ (i.text, ⟨specifier, "*"⟩)
  | .namedImports =>
    part.children.filterMap fun s ↦ do
      guard (s.kind == .importSpecifier)
      let name ← s.part .name
      let local_ := ((s.part .alias).map (·.text)).getD (decodedName name)
      return (local_, ⟨specifier, decodedName name⟩)
  | _ => []

def addImport (m : Module) (stmt : Node) : Module :=
  match (stmt.part .source).bind stringValue with
  | none => m
  | some specifier =>
    let clauses := stmt.children.filter (·.kind == .importClause)
    let is := clauses.flatMap fun c ↦ c.children.flatMap (importsOf specifier)
    { m with imports := is.foldl (fun t (n, i) ↦ t.set n i) m.imports }

def isVariables (n : Node) : Bool :=
  n.kind == .lexicalDeclaration || n.kind == .variableDeclaration

def exportsOf (source : Option String) (clause : Node) : List (String × Export) :=
  clause.children.filterMap fun s ↦ do
    guard (s.kind == .exportSpecifier)
    let name ← s.part .name
    let exported := ((s.part .alias).map (·.text)).getD name.text
    return (exported,
      match source with
      | some specifier => .passed ⟨specifier, name.text⟩
      | none => .bound name.text)

def addExport (m : Module) (stmt : Node) : Module :=
  let source := (stmt.part .source).bind stringValue
  match stmt.part .declaration, stmt.part .value,
      stmt.children.find? (·.kind == .exportClause) with
  | some decl, _, _ =>
    if isVariables decl then
      let bs := boundNames decl
      (m.addBindings bs).addExports (bs.map fun (n, _) ↦ (n, .bound n))
    else m
  | none, some value, _ =>
    let inner := value.unwrap
    m.addExports
      [("default", if inner.kind == .identifier then .bound inner.text else .value value)]
  | none, none, some clause => m.addExports (exportsOf source clause)
  | none, none, none =>
    match source with
    | some specifier => { m with stars := m.stars ++ [specifier] }
    | none => m

def addStatement (m : Module) (stmt : Node) : Module :=
  match stmt.kind with
  | .importStatement => m.addImport stmt
  | .lexicalDeclaration | .variableDeclaration => m.addBindings (boundNames stmt)
  | .exportStatement => m.addExport stmt
  | _ => m

def ofRoot (path : String) (root : Node) : Module :=
  root.children.foldl addStatement { path, root }

end Module

end CommandCoverage.Script
