import CommandCoverage.Script.Atom

namespace CommandCoverage.Script.Parser

variable (g : Grammar)

def type : Parser Node := do
  guard g.types
  g.parse .type

def typeMark : Parser Node := sign ":" *> type g

def returnType : Parser (List Node) := do
  guard g.types
  sign ":"
  let predicate : Parser (List Node) := do
    let _ ← word
    sameLine
    keyword "is"
    return [← g.parse .type]
  let asserts : Parser (List Node) := do
    keyword "asserts"
    sameLine
    predicate <|> (word *> pure [])
  asserts <|> predicate <|> (return [← g.parse .type])

def typeArguments : Parser Node := node .typeArguments do
  guard g.types
  mark "<"
  let ts ← listOf (g.parse .type)
  guard !ts.isEmpty
  mark ">"
  return ts

def typeParameter : Parser (List Node) := do
  let _ ← many (keywordOf ["const", "in", "out"] <* ahead word)
  let _ ← name
  let bound ← optional (keyword "extends" *> g.parse .type)
  let initial ← optional (sign "=" *> g.parse .type)
  return bound.toList ++ initial.toList

def typeParameters : Parser Node := node .typeNode do
  guard g.types
  mark "<"
  let ps ← listOf (typeParameter g)
  guard !ps.isEmpty
  mark ">"
  return ps.flatten

def initializer : Parser Node := sign "=" *> g.parse (.expression true)

def withDefault (p : Parser Node) : Parser Node := do
  let s ← place
  let target ← p
  let initial ← optional (initializer g)
  match initial with
  | none => return target
  | some i => return s.node .defaultPattern (← get) [target, i]

def computedKey : Parser Node := node .computedKey do
  sign "["
  let e ← g.parse (.expression true)
  sign "]"
  return [e]

def privateName : Parser Node := leaf .privateName do
  sign "#"
  let c ← get
  guard (c.rest.head?.any isNameStart)
  let _ ← word

def memberName : Parser Node :=
  string <|> number <|> computedKey g <|> privateName <|> leaf .propertyName word

def restPattern (assigned : Bool) : Parser Node := node .restPattern do
  sign "..."
  return [← g.parse (.pattern assigned)]

def objectPattern (assigned : Bool) : Parser Node := node .objectPattern do
  sign "\x7b"
  let keyed : Parser Node := node .pair do
    let k ← memberName g
    sign ":"
    return [k.inRole .key, (← withDefault g (g.parse (.pattern assigned))).inRole .value]
  let entries ← listWithHoles
    (restPattern g assigned <|> keyed <|> withDefault g (leaf .shorthand name))
  sign "\x7d"
  return entries

def arrayPattern (assigned : Bool) : Parser Node := node .arrayPattern do
  sign "["
  let entries ← listWithHoles
    (restPattern g assigned <|> withDefault g (g.parse (.pattern assigned)))
  sign "]"
  return entries

def binding (assigned : Bool := false) : Parser Node :=
  objectPattern g assigned <|> arrayPattern g assigned <|> identifier

def accessWords : List String :=
  ["public", "private", "protected", "override", "readonly"]

def decorator : Parser Node := node .decorator do
  sign "@"
  guard ((← upcoming).head?.any fun c ↦ isNameStart c || c == '(')
  return [← g.parse .unary]

def parameter : Parser Node := node .parameter do
  let decorators ← many (decorator g)
  let _ ← many do
    guard g.types
    let w ← keywordOf accessWords
    guard ((← upcoming).head?.any fun c ↦ isNameStart c || c == '[' || c == '\x7b')
    return w
  let target ← restPattern g false <|> binding g <|> leaf .this (keyword "this")
  let _ ← taken (guard g.types *> sign "?")
  let annotated ← optional (typeMark g)
  let initial ← optional (initializer g)
  return decorators ++ [target] ++ annotated.toList ++ initial.toList

def parameters : Parser Node := node .parameters do
  sign "("
  let ps ← listOf (parameter g)
  sign ")"
  return ps

end CommandCoverage.Script.Parser
