import CommandCoverage.Script.TypeExpression

namespace CommandCoverage.Script.Parser

variable (g : Grammar)

def block : Parser Node := node .block do
  sign "\x7b"
  let body ← many (g.parse .statement)
  sign "\x7d"
  return body

def signature : Parser (List Node) := do
  let generics ← optional (typeParameters g)
  let params ← parameters g
  let result ← (returnType g).orElse []
  return generics.toList ++ [params] ++ result

def withBody (p : Parser (List Node)) : Parser (List Node) := do
  let head ← p
  let body ← block g
  return head ++ [body.inRole .body]

def functionForm (named : Bool) : Parser Node := do
  let s ← place
  let _ ← taken (keyword "async" <* sameLine)
  keyword "function"
  let generator ← taken (sign "*")
  let label ← if named then some <$> identifier else optional identifier
  let parts ← withBody g (signature g)
  return s.node (if generator then .generator else .function) (← get)
    ((label.map (·.inRole .name)).toList ++ parts)

def startsMember : List Char → Bool
  | '.' :: c :: _ => isDigit c
  | c :: _ =>
    isNameStart c || isDigit c || c == '[' || c == '\"' || c == '\'' || c == '#' || c == '*' ||
      c == '\\'
  | [] => false

def modifier (ws : List String) : Parser String := do
  let w ← keywordOf ws
  guard (startsMember (← upcoming))
  return w

def method : Parser Node := node .method do
  let _ ← many (modifier ["static", "async", "get", "set"])
  let _ ← taken (sign "*")
  let key ← memberName g
  let _ ← taken (guard g.types *> sign "?")
  withBody g (do return key.inRole .name :: (← signature g))

def heritage : Parser (List Node) := do
  let base ← optional do
    keyword "extends"
    let b ← g.parse .unary
    let args ← optional (typeArguments g)
    return b :: args.toList
  let contracts ← optional do
    guard g.types
    keyword "implements"
    listOf (g.parse .type)
  return base.getD [] ++ contracts.getD []

def classMember : Parser (List Node) := do
  let staticBlock : Parser (List Node) := do
    keyword "static"
    return [← block g]
  let member : Parser (List Node) := do
    let s ← place
    let decorators ← many (decorator g)
    let words := ["static", "async", "get", "set", "accessor"] ++
      if g.types then ["declare", "abstract"] ++ accessWords else []
    let _ ← many (modifier words)
    let _ ← taken (sign "*")
    let indexed : Parser (List Node) := do
      guard g.types
      sign "["
      let _ ← name
      let k ← typeMark g
      sign "]"
      let v ← typeMark g
      declarationEnd g
      return [k, v]
    let field (key : Node) : Parser (List Node) := do
      let _ ← taken (guard g.types *> (sign "?" <|> sign "!"))
      let annotated ← optional (typeMark g)
      let initial ← optional (initializer g)
      if initial.isSome then semicolon else declarationEnd g
      return key :: annotated.toList ++ initial.toList
    let callable (key : Node) : Parser (List Node) := do
      let _ ← taken (guard g.types *> sign "?")
      let parts ← signature g
      let body ← optional (block g)
      match body with
      | some b => return [s.node .method (← get) (key.inRole .name :: parts ++ [b.inRole .body])]
      | none =>
        guard g.types
        let _ ← taken (sign ",")
        declarationEnd g
        return key :: parts
    let parts ← indexed <|> (memberName g >>= fun key ↦ callable key <|> field key)
    return decorators ++ parts
  (sign ";" *> pure []) <|> staticBlock <|> member

def classBody : Parser Node := node .classBody do
  sign "\x7b"
  let members ← many (classMember g)
  sign "\x7d"
  return members.flatten

def classForm (named : Bool) : Parser Node := node .classExpression do
  let decorators ← many (decorator g)
  let _ ← taken (guard g.types *> keyword "abstract")
  keyword "class"
  let plain : Parser Node := do
    absent (keyword "extends" <|> (guard g.types *> keyword "implements"))
    identifier
  let label ← if named then some <$> plain else optional plain
  let generics ← optional (typeParameters g)
  let bases ← heritage g
  let body ← classBody g
  return decorators ++ (label.map (·.inRole .name)).toList ++ generics.toList ++ bases ++ [body]

end CommandCoverage.Script.Parser
