import CommandCoverage.Script.Traversal

namespace CommandCoverage.Script

/-- The kinds that a reader of the tree can tell apart. -/
inductive Kind where
  | program | comment
  | identifier | undefined | propertyName | privateName | shorthand
  | string | stringFragment | escape | template | substitution
  | number | trueLiteral | falseLiteral | nullLiteral | regex
  | this | super | importKeyword | metaProperty
  | object | array | pair | method | spread | computedKey
  | member | subscript | call | new | arguments
  | arrow | function | generator | classBody | classExpression | decorator
  | unary | update | binary | ternary | assignment | sequence | yield
  | parenthesized | await | asType | satisfies | nonNull | typeAssertion | instantiation
  | typeArguments | typeNode
  | objectPattern | arrayPattern | restPattern | defaultPattern | parameters | parameter
  | markup | markupText | markupAttribute
  | importStatement | importClause | namespaceImport | namedImports | importSpecifier
  | exportStatement | exportClause | exportSpecifier | namespaceExport
  | lexicalDeclaration | variableDeclaration | declarator | declaration
  | block | returnStatement | expressionStatement | statement
  deriving DecidableEq, Repr, Inhabited

inductive Role where
  | key | value | name | alias | callee | arguments | property | object | index
  | body | source | declaration
  deriving DecidableEq, Repr

/-- Offsets count characters from the start of the source, lines count from one. -/
structure Node where
  kind : Kind
  role : Option Role := none
  line : Nat := 1
  start : Nat := 0
  stop : Nat := 0
  text : String := ""
  children : List Node := []
  deriving Inhabited, Repr

namespace Node

def part (n : Node) (r : Role) : Option Node := n.children.find? (·.role == some r)

def inRole (n : Node) (r : Role) : Node := { n with role := some r }

def parts (n : Node) : List Node := n.children.filter (·.kind != .comment)

instance : Branching Node where
  children := children
  sizeOf_children_lt := by
    intro n
    obtain ⟨k, r, l, a, b, t, cs⟩ := n
    simp only [mk.sizeOf_spec]
    omega

def walk (n : Node) : List Node := Branching.walk n

end Node

end CommandCoverage.Script
