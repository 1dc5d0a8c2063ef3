import CommandCoverage.Script.Statement

namespace CommandCoverage.Script

inductive Dialect where
  | javascript | typescript | tsx
  deriving DecidableEq, Repr

namespace Dialect

def hasTypes : Dialect → Bool
  | javascript => false
  | _ => true

def hasMarkup : Dialect → Bool
  | typescript => false
  | _ => true

end Dialect

namespace Parser

/-- One level of the parser over parsers for the parts. -/
def step (g : Grammar) : Goal → Parser Node
  | .statement => anyStatement g
  | .expression allowIn => fullExpression g allowIn
  | .unary => unary g
  | .constructed => constructed g
  | .pattern assigned => (guard assigned *> assignee g) <|> binding g assigned
  | .type => typeExpression g
  | .markup => markupElement g

def nested (d : Dialect) : Nat → Goal → Parser Node
  | 0, _ => failure
  | fuel + 1, goal => step ⟨d.hasTypes, d.hasMarkup, nested d fuel⟩ goal

end Parser

namespace Node

mutual

/-- Puts a comment into the innermost node around it, in its place among the children. -/
def insertComment (c : Node) : Node → Node
  | ⟨k, r, l, a, b, t, cs⟩ => ⟨k, r, l, a, b, t, insertCommentAll c cs⟩

def insertCommentAll (c : Node) : List Node → List Node
  | [] => [c]
  | n :: ns =>
    if c.stop ≤ n.start then c :: n :: ns
    else if n.start ≤ c.start && c.stop ≤ n.stop then insertComment c n :: ns
    else n :: insertCommentAll c ns

end

end Node

/-- The syntax tree of a source, unless it has a syntax error. -/
def parse (d : Dialect) (source : List Char) : Option Node := do
  let start := Cursor.ofList source
  let (statements, e) ← Parser.many (Parser.nested d (4 * source.length + 16) .statement) start
  let stop := e.next
  if stop.rest.isEmpty then
    let root : Node :=
      { kind := .program, stop := stop.offset, text := String.ofList source, children := statements }
    return stop.comments.foldl (fun n c ↦ Node.insertComment c n) root
  else none

end CommandCoverage.Script
