import CommandCoverage.Script.Callable

namespace CommandCoverage.Script.Parser

variable (g : Grammar)

def expression : Parser Node := g.parse (.expression true)

def expressions (allowIn : Bool := true) : Parser Node := do
  let s ← place
  let first ← g.parse (.expression allowIn)
  let rest ← many (sign "," *> g.parse (.expression allowIn))
  if rest.isEmpty then return first
  nodeFrom s .sequence (pure (first :: rest))

def spread : Parser Node := node .spread do
  sign "..."
  return [← expression g]

def parenthesized : Parser Node := node .parenthesized do
  sign "("
  let e ← expressions g
  let annotated ← optional (typeMark g)
  sign ")"
  return e :: annotated.toList

def array : Parser Node := node .array do
  sign "["
  let items ← listWithHoles (spread g <|> expression g)
  sign "]"
  return items

def pair : Parser Node := node .pair do
  let k ← memberName g
  sign ":"
  return [k.inRole .key, (← expression g).inRole .value]

def objectMember : Parser Node :=
  spread g <|> pair g <|> method g <|> leaf .shorthand name

def object : Parser Node := node .object do
  sign "\x7b"
  let members ← listWithHoles (objectMember g)
  sign "\x7d"
  return members

def arguments : Parser Node := node .arguments do
  sign "("
  let items ← listWithHoles (spread g <|> expression g)
  sign ")"
  return items

def arrowHead : Parser (List Node) := do
  let single : Parser (List Node) := return [← identifier]
  let head ← single <|> signature g
  sign "=>"
  return head

def arrowFunction (allowIn : Bool) : Parser Node := node .arrow do
  let c := (← upcoming).head?
  guard (c.any fun ch ↦ isNameStart ch || ch == '(' || ch == '<' && g.types)
  let head ← (keyword "async" *> sameLine *> arrowHead g) <|> arrowHead g
  let body ← if (← upcoming).head? == some '\x7b' then block g else g.parse (.expression allowIn)
  return head ++ [body.inRole .body]

def wordsAsNodes : List (String × Kind) :=
  [("this", .this), ("super", .super), ("null", .nullLiteral), ("true", .trueLiteral),
    ("false", .falseLiteral)]

/-- `import` stands for a function or for the module itself. -/
def imported : Parser Node := do
  let s ← place
  keyword "import"
  let e ← get
  (sign "." *> keyword "meta" *> (return s.node .metaProperty (← get))) <|>
    (ahead (mark "(") *> pure (s.node .importKeyword e))

def wordExpression : Parser Node := do
  let w := (← (ahead word *> upcoming))
  let w := String.ofList (w.take (nameLength (w.length + 1) w))
  match w with
  | "function" => functionForm g false
  | "async" => functionForm g false <|> identifier
  | "class" => classForm g false
  | "import" => imported
  | _ =>
    match wordsAsNodes.lookup w with
    | some kind => leaf kind word
    | none => identifier

def primary : Parser Node := do
  match (← upcoming).head? with
  | some '(' => parenthesized g
  | some '[' => array g
  | some '\x7b' => object g
  | some '\"' | some '\'' => string
  | some '\x60' => template (expressions g)
  | some '/' => regex
  | some '<' => guard g.markup *> g.parse .markup
  | some '#' => privateName
  | some '@' => classForm g false
  | some c => if isDigit c || c == '.' then number else wordExpression g
  | none => failure

def propertyName : Parser Node := privateName <|> leaf .propertyName word

def construction : Parser Node := do
  let s ← place
  keyword "new"
  (sign "." *> keyword "target" *> (return s.node .metaProperty (← get))) <|> do
    let target ← g.parse .constructed
    let generics ← optional (typeArguments g <* ahead (mark "("))
    let args ← if (← upcoming).head? == some '(' then some <$> arguments g else pure none
    return s.node .new (← get)
      (target :: generics.toList ++ (args.map (·.inRole .arguments)).toList)

def memberSuffix (s : Cursor) (left : Node) : Parser Node := do
  let dotted : Parser Node := nodeFrom s .member do
    sign "."
    return [left.inRole .object, (← propertyName).inRole .property]
  let indexed : Parser Node := nodeFrom s .subscript do
    sign "["
    let i ← expressions g
    sign "]"
    return [left.inRole .object, i.inRole .index]
  let asserted : Parser Node := nodeFrom s .nonNull do
    guard g.types
    sameLine
    sign "!"
    return [left]
  dotted <|> indexed <|> asserted

def callArguments : Parser Node :=
  (arguments g <|> template (expressions g)) >>= fun as ↦ pure (as.inRole .arguments)

def callSuffix (s : Cursor) (left : Node) : Parser Node := do
  let plain : Parser Node := nodeFrom s .call do
    return [left.inRole .callee, ← callArguments g]
  let typed : Parser Node := nodeFrom s .call do
    let ts ← typeArguments g
    return [left.inRole .callee, ts, ← callArguments g]
  let instantiated : Parser Node := nodeFrom s .instantiation do
    let ts ← typeArguments g
    let c ← upcoming
    guard (c.head?.all fun ch ↦ ";,)]\x7d:.".toList.contains ch)
    return [left, ts]
  let chained : Parser Node := do
    sign "?."
    let member : Parser Node := nodeFrom s .member do
      return [left.inRole .object, (← propertyName).inRole .property]
    let indexed : Parser Node := nodeFrom s .subscript do
      sign "["
      let i ← expressions g
      sign "]"
      return [left.inRole .object, i.inRole .index]
    member <|> indexed <|> plain <|> typed
  plain <|> chained <|> typed <|> instantiated

def constructed : Parser Node := do
  let s ← place
  let first ← construction g <|> primary g
  grow (memberSuffix g s) first

def suffixes (s : Cursor) (first : Node) : Parser Node :=
  grow (fun left ↦ memberSuffix g s left <|> callSuffix g s left) first

def memberChain : Parser Node := do
  let s ← place
  suffixes g s (← construction g <|> primary g)

/-- An arrow function. One that ends with a block may be called, and its members may be taken. -/
def arrow (allowIn : Bool) : Parser Node := do
  let s ← place
  let f ← arrowFunction g allowIn
  if (f.part .body).any (·.kind == .block) then suffixes g s f else return f

def updated : Parser Node := do
  let s ← place
  let e ← memberChain g
  (nodeFrom s .update do
    sameLine
    let _ ← signOf ["++", "--"]
    return [e]) <|> pure e

def typeAssertion : Parser Node := node .typeAssertion do
  guard (g.types && !g.markup)
  let t ← typeArguments g
  return [t, ← g.parse .unary]

def unary : Parser Node := do
  let prefixed (kind : Kind) (p : Parser String) : Parser Node := node kind do
    let _ ← p
    return [← g.parse .unary]
  let c := (← upcoming).head?
  match c with
  | some '+' | some '-' =>
    prefixed .update (signOf ["++", "--"]) <|> prefixed .unary (signOf ["+", "-"])
  | some '!' | some '~' => prefixed .unary (signOf ["!", "~"])
  | some '<' => typeAssertion g <|> updated g
  | some c =>
    if "dtva".toList.contains c then
      prefixed .unary (keywordOf ["delete", "typeof", "void"]) <|>
        prefixed .await (keywordOf ["await"]) <|> updated g
    else updated g
  | none => failure

def operators : List (List String) :=
  [["??"], ["||"], ["&&"], ["|"], ["^"], ["&"], ["==", "!=", "===", "!=="],
    ["<=", ">=", "<", ">", "instanceof", "in"], ["<<", ">>", ">>>"], ["+", "-"], ["*", "/", "%"],
    ["**"]]

def typedValue (s : Cursor) (left : Node) : Parser Node := do
  guard g.types
  sameLine
  let w ← keywordOf ["as", "satisfies"]
  let t ← (keyword "const" *> pure []) <|> (return [← g.parse .type])
  return s.node (if w == "as" then .asType else .satisfies) (← get) (left :: t)

mutual

/-- Operands joined by the operators of each level, to the left. A type assertion after a value
binds like a comparison. -/
def binary (allowIn : Bool) : List (List String) → Parser Node
  | [] => unary g
  | level :: tighter => do
    let s ← place
    let first ← binary allowIn tighter
    let step (left : Node) : Parser Node := nodeFrom s .binary do
      (level.filter fun o ↦ allowIn || o != "in").firstM token
      return [left, ← binary allowIn tighter]
    if level.contains "in" then
      grow (fun left ↦ step left <|> typedValue g s left <|> joined allowIn s left tighter) first
    else grow step first

def joined (allowIn : Bool) (s : Cursor) (left : Node) : List (List String) → Parser Node
  | [] => failure
  | level :: tighter =>
    (nodeFrom s .binary do
      level.firstM token
      return [left, ← binary allowIn tighter]) <|> joined allowIn s left tighter

end

/-- What stands between a question mark and its colon. Parentheses there may look like the
parameters of a function with the type of its result after the colon. -/
def consequence : Parser Node :=
  (expression g <* sign ":") <|> do
    guard (g.types && (← upcoming).head? == some '(')
    binary g true operators <* sign ":"

def conditional (allowIn : Bool) : Parser Node := do
  let s ← place
  let test ← binary g allowIn operators
  (nodeFrom s .ternary do
    sign "?"
    let yes ← consequence g
    let no ← g.parse (.expression allowIn)
    return [test, yes, no]) <|> pure test

def assignmentSigns : List String :=
  ["=", "+=", "-=", "*=", "/=", "%=", "**=", "<<=", ">>=", ">>>=", "&=", "^=", "|=", "&&=", "||=",
    "??="]

def isAssignable : Kind → Bool
  | .identifier | .undefined | .member | .subscript | .object | .array | .parenthesized
  | .nonNull => true
  | _ => false

def assignee : Parser Node := do
  let e ← memberChain g
  guard (isAssignable e.kind)
  return e

def assignment (allowIn : Bool) : Parser Node := do
  let s ← place
  let left ← conditional g allowIn
  (nodeFrom s .assignment do
    guard (isAssignable left.kind)
    let _ ← signOf assignmentSigns
    return [left, ← g.parse (.expression allowIn)]) <|> pure left

def destructuring (allowIn : Bool) : Parser Node := node .assignment do
  let left ← objectPattern g true <|> arrayPattern g true
  sign "="
  return [left, ← g.parse (.expression allowIn)]

def yieldExpression (allowIn : Bool) : Parser Node := node .yield do
  keyword "yield"
  let delegated : Parser (List Node) := do
    sign "*"
    return [← g.parse (.expression allowIn)]
  let plain : Parser (List Node) := do
    sameLine
    return [← g.parse (.expression allowIn)]
  (delegated <|> plain).orElse []

def fullExpression (allowIn : Bool) : Parser Node := do
  match (← upcoming).head? with
  | some '[' | some '\x7b' => assignment g allowIn <|> destructuring g allowIn
  | some '<' =>
    if g.markup then assignment g allowIn <|> arrow g allowIn
    else arrow g allowIn <|> assignment g allowIn
  | some 'y' => yieldExpression g allowIn <|> arrow g allowIn <|> assignment g allowIn
  | _ => arrow g allowIn <|> assignment g allowIn

end CommandCoverage.Script.Parser
