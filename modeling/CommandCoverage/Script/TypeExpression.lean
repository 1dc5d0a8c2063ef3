import CommandCoverage.Script.Pattern

namespace CommandCoverage.Script.Parser

variable (g : Grammar)

def importedType : Parser Node := do
  let s ← place
  let callee ← leaf .importKeyword (keyword "import")
  let args ← node .arguments do
    sign "("
    let as ← listOf (g.parse (.expression true))
    sign ")"
    return as
  return s.node .call (← get) [callee.inRole .callee, args.inRole .arguments]

def qualified (first : Parser (List Node)) : Parser (List Node) := do
  let head ← first
  let _ ← many (sign "." *> (privateName *> pure "" <|> word))
  let args ← optional (typeArguments g)
  return head ++ args.toList

def typeName : Parser (List Node) :=
  qualified g (do
    let w ← word
    guard (!reserved.contains w || ["this", "null", "true", "false", "void"].contains w)
    return [])

def typeQuery : Parser (List Node) :=
  keyword "typeof" *>
    qualified g ((return [← importedType g]) <|> (keyword "this" *> pure []) <|>
      (name *> pure []))

def optionMark : Parser Unit :=
  sign "?" <|> (sign "-" *> sign "?") <|> (sign "+" *> sign "?") <|> pure ()

/-- What stands between the brackets of an index signature, mapped type or computed key. -/
def bracketed : Parser (List Node) := do
  sign "["
  let mapped : Parser (List Node) := do
    let _ ← name
    keyword "in"
    let t ← g.parse .type
    let renamed ← optional (keyword "as" *> g.parse .type)
    return t :: renamed.toList
  let index : Parser (List Node) := name *> (return [← typeMark g])
  let key : Parser (List Node) := return [← g.parse (.expression true)]
  let parts ← (mapped <* sign "]") <|> (index <* sign "]") <|> (key <* sign "]")
  return parts

/-- Words ahead of the name of a member. They are names themselves when nothing follows. -/
def memberWords : List String :=
  ["readonly", "get", "set", "static", "async", "declare", "abstract", "accessor"] ++ accessWords

def typeMember : Parser Node := node .typeNode do
  let _ ← many ((sign "+" <|> sign "-") *> keyword "readonly")
  let _ ← many do
    let w ← keywordOf memberWords
    guard ((← upcoming).head?.any fun c ↦
      isNameStart c || isDigit c || c == '[' || c == '\"' || c == '\'' || c == '#')
    return w
  let constructs ← taken (keyword "new" <* ahead (mark "(" <|> mark "<"))
  let key : Parser (List Node) :=
    bracketed g <|> ((string <|> number <|> privateName) *> pure []) <|> (word *> pure [])
  let names ← if constructs then pure none else optional key
  optionMark
  let generics ← optional (typeParameters g)
  let params ← optional (parameters g)
  guard (names.isSome || params.isSome)
  let result ← (returnType g).orElse []
  return names.getD [] ++ generics.toList ++ params.toList ++ result

def objectType : Parser (List Node) := do
  sign "\x7b"
  let _ ← taken (sign ",")
  let members ← many (typeMember g <* (sign "," <|> declarationEnd g <|> ahead (mark "\x7d")))
  sign "\x7d"
  return members

def tupleMember : Parser (List Node) := do
  let _ ← taken (sign "...")
  let named : Parser (List Node) := do
    let _ ← word
    let _ ← taken (sign "?")
    return [← typeMark g]
  let plain : Parser (List Node) := do
    let t ← g.parse .type
    let _ ← taken (sign "?")
    return [t]
  named <|> plain

def tupleType : Parser (List Node) := do
  sign "["
  let members ← listOf (tupleMember g)
  sign "]"
  return members.flatten

def literalType : Parser (List Node) :=
  ((string <|> (taken (sign "-") *> number)) *> pure []) <|>
    (return (← template (g.parse .type)).children)

def parenthesizedType : Parser (List Node) := do
  sign "("
  let t ← g.parse .type
  sign ")"
  return [t]

def primaryType : Parser (List Node) := do
  match (← upcoming).head? with
  | some '(' => parenthesizedType g
  | some '\x7b' => objectType g
  | some '[' => tupleType g
  | some c =>
    if isNameStart c then
      (return [← importedType g]) >>= (fun t ↦ qualified g (pure t)) <|> typeQuery g <|> typeName g
    else literalType g
  | none => failure

def functionType : Parser (List Node) := do
  let _ ← taken (keyword "abstract")
  let _ ← taken (keyword "new")
  let generics ← optional (typeParameters g)
  let params ← parameters g
  sign "=>"
  let predicate : Parser (List Node) := word *> sameLine *> keyword "is" *>
    (return [← g.parse .type])
  let asserts : Parser (List Node) := keyword "asserts" *> sameLine *>
    (predicate <|> word *> pure [])
  let result ← asserts <|> predicate <|> (return [← g.parse .type])
  return generics.toList ++ [params] ++ result

def indexedType : Parser (List Node) := do
  let t ← primaryType g
  let rest ← many do
    sameLine
    sign "["
    let i ← optional (g.parse .type)
    sign "]"
    return i.toList
  return t ++ rest.flatten

def operatedType : Parser (List Node) := do
  let words ← many (keywordOf ["keyof", "unique", "readonly", "infer"] <*
    ahead (do
      let c ← place
      guard (c.rest.head?.any fun c ↦
        isNameStart c || isDigit c || "([\x7b\"'\x60-".toList.contains c)
      guard (!(["extends", "in", "is"].contains (← word.orElse "")))))
  let t ← functionType g <|> indexedType g
  let bound : Parser (List Node) := do
    guard (words.getLast? == some "infer")
    keyword "extends"
    let b ← functionType g <|> indexedType g
    ahead (absent (sign "?"))
    return b
  return t ++ (← bound.orElse [])

def joinedType (s : String) (p : Parser (List Node)) : Parser (List Node) := do
  let _ ← taken (sign s)
  let first ← p
  let rest ← many (sign s *> p)
  return first ++ rest.flatten

def unionType : Parser (List Node) := joinedType "|" (joinedType "&" (operatedType g))

def conditionalType : Parser (List Node) := do
  let t ← unionType g
  let rest : Parser (List Node) := do
    keyword "extends"
    let bound ← unionType g
    sign "?"
    let yes ← g.parse .type
    sign ":"
    let no ← g.parse .type
    return bound ++ [yes, no]
  return t ++ (← rest.orElse [])

def typeExpression : Parser Node := node .typeNode (conditionalType g)

end CommandCoverage.Script.Parser
