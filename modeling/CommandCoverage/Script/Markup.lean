import CommandCoverage.Script.Expression

namespace CommandCoverage.Script.Parser

variable (g : Grammar)

def markupName : Parser Unit := do
  let part : Parser Unit := do
    let _ ← word
    let c ← get
    chars (c.rest.takeWhile fun ch ↦ ch == '-' || isNameChar ch).length
  part
  let _ ← many ((sign "." <|> sign ":") *> part)

def embedded : Parser Node := node .markup do
  sign "\x7b"
  let e ← optional (spread g <|> expressions g)
  sign "\x7d"
  return e.toList

def markupString : Parser Node := leaf .string do
  let c ← place
  match c.rest with
  | q :: r =>
    guard (q == '\"' || q == '\'')
    let n := (r.takeWhile (· != q)).length
    guard (n < r.length)
    chars (n + 2)
  | [] => failure

def markupAttribute : Parser Node := node .markupAttribute do
  let named : Parser (List Node) := do
    markupName
    let value ← optional (sign "=" *> (markupString <|> embedded g <|> g.parse .markup))
    return value.toList
  let spreading : Parser (List Node) := return [← embedded g]
  named <|> spreading

def referenceLength (r : List Char) : Nat :=
  let body := r.takeWhile (· != ';')
  let valid : Bool :=
    match body with
    | '#' :: 'x' :: h | '#' :: 'X' :: h => 0 < h.length && h.length ≤ 6 && h.all isHexDigit
    | '#' :: d => 0 < d.length && d.length ≤ 5 && d.all isDigit
    | b => 0 < b.length && b.length ≤ 30 && b.all Char.isAlpha
  if valid && body.length < r.length then body.length + 1 else 0

def markupText : Parser Node := do
  let c ← get
  nodeFrom c .markupText do
    match c.rest with
    | '&' :: r =>
      let n := referenceLength r
      guard (n > 0)
      chars (n + 1)
    | r => chars (r.takeWhile fun ch ↦ !"<>\x7b\x7d&".toList.contains ch).length
    return []

def closing : Parser Unit := do
  mark "<"
  sign "/"
  let _ ← taken markupName
  mark ">"

def markupElement : Parser Node := node .markup do
  mark "<"
  let named : Parser (List Node) := do
    markupName
    let args ← optional (typeArguments g)
    let attributes ← many (markupAttribute g)
    return args.toList ++ attributes
  let head ← optional named
  let selfClosing : Parser (List Node) := do
    guard head.isSome
    sign "/"
    mark ">"
    return []
  let withChildren : Parser (List Node) := do
    mark ">"
    let child : Parser Node := do
      let c ← get
      match c.rest with
      | '\x7b' :: _ => embedded g
      | '<' :: _ => absent closing *> g.parse .markup
      | _ => markupText
    let children ← many child
    closing
    return children
  let children ← selfClosing <|> withChildren
  return head.getD [] ++ children

end CommandCoverage.Script.Parser
