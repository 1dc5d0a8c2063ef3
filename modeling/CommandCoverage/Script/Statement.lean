import CommandCoverage.Script.Markup

namespace CommandCoverage.Script.Parser

variable (g : Grammar)

def statement : Parser Node := g.parse .statement

def declarator (allowIn : Bool) : Parser Node := node .declarator do
  let target ← binding g
  let _ ← taken (guard g.types *> sign "!")
  let annotated ← optional (typeMark g)
  let value ← optional (sign "=" *> g.parse (.expression allowIn))
  return target.inRole .name :: annotated.toList ++ (value.map (·.inRole .value)).toList

def declarators (allowIn : Bool) : Parser (Kind × List Node) := do
  let w ← keywordOf ["var", "let", "const"]
  let first ← declarator g allowIn
  let rest ← many (sign "," *> declarator g allowIn)
  return (if w == "var" then .variableDeclaration else .lexicalDeclaration, first :: rest)

def variableStatement : Parser Node := do
  let s ← place
  let (kind, ds) ← declarators g true
  if ds.getLast?.any fun d ↦ (d.part .value).isSome then semicolon else declarationEnd g
  return s.node kind (← get) ds

def functionDeclaration : Parser Node := node .declaration do
  let _ ← taken (keyword "async" <* sameLine)
  keyword "function"
  let _ ← taken (sign "*")
  let label ← identifier
  let parts ← signature g
  let body ← if (← upcoming).head? == some '\x7b' then some <$> block g
    else guard g.types *> declarationEnd g *> pure none
  return label.inRole .name :: parts ++ (body.map (·.inRole .body)).toList

def classDeclaration : Parser Node := do
  let n ← classForm g true
  return { n with kind := .declaration }

def moduleName : Parser Unit :=
  (string *> pure ()) <|> do
    let _ ← name
    let _ ← many (sign "." *> word)

def enumMember : Parser (List Node) := do
  let key ← memberName g
  let value ← optional (initializer g)
  return key :: value.toList

def typeDeclaration : Parser Node := node .declaration do
  guard g.types
  let interface : Parser (List Node) := do
    keyword "interface"
    let _ ← name
    let generics ← optional (typeParameters g)
    let bases ← optional (keyword "extends" *> listOf (g.parse .type))
    let body ← objectType g
    return generics.toList ++ bases.getD [] ++ body
  let typeAlias : Parser (List Node) := do
    keyword "type"
    let _ ← name
    let generics ← optional (typeParameters g)
    sign "="
    let t ← g.parse .type
    declarationEnd g
    return generics.toList ++ [t]
  let enumeration : Parser (List Node) := do
    let _ ← taken (keyword "const")
    keyword "enum"
    let _ ← name
    sign "\x7b"
    let members ← listOf (enumMember g)
    sign "\x7d"
    return members.flatten
  let space : Parser (List Node) := do
    let _ ← keywordOf ["namespace", "module"]
    sameLine
    moduleName
    let body ← optional (block g)
    if body.isNone then declarationEnd g
    return body.toList
  let ambient : Parser (List Node) := do
    keyword "declare"
    sameLine
    let global : Parser Node := keyword "global" *> block g
    return [← global <|> statement g]
  match (← (ahead word *> upcoming)).head? with
  | some 'i' => interface
  | some 't' => typeAlias
  | some 'e' | some 'c' => enumeration
  | some 'n' | some 'm' => space
  | some 'd' => ambient
  | _ => failure

def wordsAhead : Parser (String × Option String) := fun c ↦
  match word c with
  | none => some (("", none), c)
  | some (w, e) => some ((w, if e.breaksLine then none else (word e).map (·.1)), c)

def declaration : Parser Node := do
  match ← wordsAhead with
  | ("var", _) | ("let", _) => variableStatement g
  | ("const", second) =>
    if g.types && second == some "enum" then typeDeclaration g else variableStatement g
  | ("function", _) => functionDeclaration g
  | ("async", some "function") => functionDeclaration g
  | ("class", _) => classDeclaration g
  | ("abstract", some "class") => classDeclaration g
  | (_, _) =>
    if (← upcoming).head? == some '@' then classDeclaration g else typeDeclaration g

def listedName : Parser Node := string <|> leaf .identifier word

def fromClause : Parser Node := do
  keyword "from"
  return (← string).inRole .source

def attributesClause : Parser Unit := do
  let _ ← taken (keywordOf ["with", "assert"] *> object g)

/-- An imported or exported name, with what it is called here. Imports of names that are no
identifiers call them something else. -/
def specifier (kind : Kind) : Parser Node := node kind do
  let renamed : Parser (List Node) := do
    let n ← listedName
    let a ← optional (keyword "as" *> listedName)
    let plain := n.kind == .identifier && n.text != "default"
    guard (kind != .importSpecifier || plain || a.isSome)
    return n.inRole .name :: (a.map (·.inRole .alias)).toList
  let typed : Parser (List Node) := do
    guard g.types
    let _ ← keywordOf ["type", "typeof"]
    absent (keyword "as" *> absent (keyword "as"))
    renamed
  typed <|> renamed

def namedImports : Parser Node := node .namedImports do
  sign "\x7b"
  let specs ← listOf (specifier g .importSpecifier)
  sign "\x7d"
  return specs

def namespaceImport : Parser Node := node .namespaceImport do
  sign "*"
  keyword "as"
  return [← identifier]

def importClause : Parser Node := node .importClause do
  let listed := namespaceImport <|> namedImports g
  let whole : Parser (List Node) := do
    let d ← identifier
    let more ← optional (sign "," *> listed)
    return d :: more.toList
  (return [← listed]) <|> whole

def importStatement : Parser Node := node .importStatement do
  keyword "import"
  let effect : Parser (List Node) := return [(← string).inRole .source]
  let clause : Parser (List Node) := do
    let c ← importClause g
    return [c, ← fromClause]
  let required : Parser (List Node) := do
    guard g.types
    let _ ← identifier
    sign "="
    let call : Parser Unit := keyword "require" *> sign "(" *> string *> sign ")"
    call <|> moduleName
    return []
  let typed : Parser (List Node) := do
    guard g.types
    let _ ← keywordOf ["type", "typeof"]
    clause <|> required
  let parts ← effect <|> typed <|> clause <|> required
  attributesClause g
  declarationEnd g
  return parts

def exportClause : Parser Node := node .exportClause do
  sign "\x7b"
  let specs ← listOf (specifier g .exportSpecifier)
  sign "\x7d"
  return specs

def namesCallable : Parser Bool := do
  let function : Parser Unit := do
    let _ ← taken (keyword "async" <* sameLine)
    keyword "function"
    let _ ← taken (sign "*")
    let _ ← name
  let class_ : Parser Unit := do
    let _ ← taken (guard g.types *> keyword "abstract")
    keyword "class"
    let w ← name
    guard (!g.types || w != "implements")
  taken (ahead (function <|> class_))

def exportStatement : Parser Node := node .exportStatement do
  let decorators ← many (decorator g)
  keyword "export"
  let from? : Parser (List Node) := do
    let f ← optional fromClause
    if f.isSome then attributesClause g
    return f.toList
  match (← upcoming).head? with
  | some '*' =>
    sign "*"
    let label ← optional (node .namespaceExport (keyword "as" *> (return [← listedName])))
    let source ← fromClause
    attributesClause g
    declarationEnd g
    return decorators ++ label.toList ++ [source]
  | some '\x7b' =>
    let clause ← exportClause g
    let source ← from?
    declarationEnd g
    return decorators ++ [clause] ++ source
  | some '=' =>
    guard g.types
    sign "="
    let e ← expression g
    semicolon
    return [e]
  | _ =>
    let standard : Parser (List Node) := do
      keyword "default"
      let (first, second) ← wordsAhead
      if (← namesCallable g) || (g.types && first == "interface" && second.isSome) then
        return [(← declaration g).inRole .declaration]
      let e ← expression g
      semicolon
      return [e.inRole .value]
    let typedClause : Parser (List Node) := do
      guard g.types
      keyword "type"
      let clause ← exportClause g
      let source ← from?
      declarationEnd g
      return clause :: source
    let named : Parser (List Node) := do
      guard g.types
      keyword "as"
      keyword "namespace"
      let _ ← name
      declarationEnd g
      return []
    let aliased : Parser (List Node) := do
      guard g.types
      return [← importStatement g]
    match ← wordsAhead with
    | ("default", _) => return decorators ++ (← standard)
    | ("as", _) => named
    | ("import", _) => aliased
    | ("type", _) => typedClause <|> (return [(← declaration g).inRole .declaration])
    | _ => return decorators ++ [(← declaration g).inRole .declaration]

def condition : Parser Node := parenthesized g

def ifStatement : Parser Node := node .statement do
  keyword "if"
  let test ← condition g
  let yes ← statement g
  let no ← optional (keyword "else" *> statement g)
  return test :: yes :: no.toList

def memberLoopHead : Parser (List Node) := do
  let declared : Parser Node := do
    let _ ← keywordOf ["var", "let", "const"]
    let target ← binding g
    let initial ← optional (sign "=" *> g.parse (.expression false))
    return { target with children := target.children ++ initial.toList }
  let target ← declared <|> assignee g <|> objectPattern g true <|> arrayPattern g true
  let _ ← keywordOf ["in", "of"]
  return [target, ← expressions g]

def countedLoopHead : Parser (List Node) := do
  let declared : Parser Node := do
    let s ← place
    let (kind, ds) ← declarators g false
    sign ";"
    return s.node kind (← get) ds
  let plain (allowIn : Bool) : Parser (List Node) := do
    let e ← optional (expressions g allowIn)
    sign ";"
    return e.toList
  let first ← (return [← declared]) <|> plain false
  let test ← plain true
  let step ← optional (expressions g)
  return first ++ test ++ step.toList

def forStatement : Parser Node := node .statement do
  keyword "for"
  let _ ← taken (keyword "await")
  sign "("
  let head ← (memberLoopHead g <* sign ")") <|> (countedLoopHead g <* sign ")")
  return head ++ [← statement g]

def whileStatement : Parser Node := node .statement do
  keyword "while"
  let test ← condition g
  return [test, ← statement g]

def doStatement : Parser Node := node .statement do
  keyword "do"
  let body ← statement g
  keyword "while"
  let test ← condition g
  let _ ← taken (sign ";")
  return [body, test]

def tryStatement : Parser Node := node .statement do
  keyword "try"
  let body ← block g
  let handler : Parser (List Node) := do
    keyword "catch"
    let bound ← optional do
      sign "("
      let b ← binding g
      let annotated ← optional (typeMark g)
      sign ")"
      return b :: annotated.toList
    return bound.getD [] ++ [← block g]
  let caught ← optional handler
  let final ← optional (keyword "finally" *> block g)
  return body :: caught.getD [] ++ final.toList

def switchStatement : Parser Node := node .statement do
  keyword "switch"
  let subject ← condition g
  sign "\x7b"
  let arm : Parser (List Node) := do
    let test ← (keyword "case" *> (return [← expressions g])) <|> (keyword "default" *> pure [])
    sign ":"
    return test ++ (← many (statement g))
  let arms ← many arm
  sign "\x7d"
  return subject :: arms.flatten

def returnStatement : Parser Node := node .returnStatement do
  keyword "return"
  let value ← optional (absent (declarationEnd g) *> expressions g)
  if value.isSome then semicolon else declarationEnd g
  return value.toList

def throwStatement : Parser Node := node .statement do
  keyword "throw"
  let e ← expressions g
  semicolon
  return [e]

def jumpStatement : Parser Node := node .statement do
  let _ ← keywordOf ["break", "continue"]
  let _ ← optional (absent (declarationEnd g) *> name)
  declarationEnd g
  return []

def withStatement : Parser Node := node .statement do
  keyword "with"
  let subject ← condition g
  return [subject, ← statement g]

def debuggerStatement : Parser Node := node .statement do
  keyword "debugger"
  declarationEnd g
  return []

def expressionStatement : Parser Node := node .expressionStatement do
  let e ← expressions g
  semicolon
  return [e]

def labeledStatement : Parser Node := node .statement do
  let _ ← name
  sign ":"
  return [← statement g]

def typeWords : List String := ["interface", "type", "enum", "namespace", "module", "declare"]

def otherStatement : Parser Node := labeledStatement g <|> expressionStatement g

def anyStatement : Parser Node := do
  match (← upcoming).head? with
  | none => failure
  | some '\x7b' => block g <|> expressionStatement g
  | some ';' => leaf .statement (sign ";")
  | some '@' => exportStatement g <|> classDeclaration g
  | _ =>
    let (first, second) ← wordsAhead
    match first with
    | "if" => ifStatement g
    | "for" => forStatement g
    | "while" => whileStatement g
    | "do" => doStatement g
    | "try" => tryStatement g
    | "switch" => switchStatement g
    | "return" => returnStatement g
    | "throw" => throwStatement g
    | "break" => jumpStatement g
    | "continue" => jumpStatement g
    | "with" => withStatement g
    | "debugger" => debuggerStatement g
    | "export" => exportStatement g
    | "import" =>
      if ← taken (ahead (keyword "import" *> (mark "(" <|> mark "."))) then expressionStatement g
      else importStatement g
    | "var" => variableStatement g
    | "const" => declaration g
    | "let" => variableStatement g <|> otherStatement g
    | _ =>
      if ← namesCallable g then declaration g
      else if g.types && typeWords.contains first && (second.isSome || first == "module") then
        typeDeclaration g <|> otherStatement g
      else otherStatement g

end CommandCoverage.Script.Parser
