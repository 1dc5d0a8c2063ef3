import CommandCoverage.Script.Node

namespace CommandCoverage.Script

def isBlank (c : Char) : Bool :=
  c == ' ' || ('\t' ≤ c && c ≤ '\r') || c == '\u00a0' || c == '\u1680' ||
    ('\u2000' ≤ c && c ≤ '\u200b') || c == '\u2028' || c == '\u2029' || c == '\u202f' ||
    c == '\u205f' || c == '\u2060' || c == '\u3000' || c == '\ufeff'

def isLineBreak (c : Char) : Bool := c == '\n' || c == '\r' || c == '\u2028' || c == '\u2029'

/-- Names may hold every character that is no blank, no control and no ASCII punctuation. -/
def isNameChar (c : Char) : Bool :=
  c > '\x1f' && !isBlank c && !":;\x60\"'@#.,|^&<=>+-*/\\%?!~()[]\x7b\x7d".toList.contains c

def isDigit (c : Char) : Bool := '0' ≤ c && c ≤ '9'

def isNameStart (c : Char) : Bool := isNameChar c && !isDigit c

def isHexDigit (c : Char) : Bool :=
  isDigit c || ('a' ≤ c && c ≤ 'f') || ('A' ≤ c && c ≤ 'F')

/-- A place in a source: the characters ahead, the place itself, the length of the whole, and the
comments passed so far, the latest first. -/
structure Cursor where
  rest : List Char
  size : Nat
  offset : Nat := 0
  line : Nat := 1
  comments : List Node := []

namespace Cursor

def ofList (cs : List Char) : Cursor := { rest := cs, size := cs.length }

def advance : Nat → Cursor → Cursor
  | 0, c => c
  | n + 1, c =>
    match c.rest with
    | [] => c
    | ch :: r =>
      advance n { c with
        rest := r, offset := c.offset + 1, line := if ch == '\n' then c.line + 1 else c.line }

def node (c : Cursor) (kind : Kind) (e : Cursor) (children : List Node := []) : Node where
  kind
  line := c.line
  start := c.offset
  stop := e.offset
  text := String.ofList (c.rest.take (e.offset - c.offset))
  children

/-- Length of a block comment after its opening, closing included; none when it does not end. -/
def blockCommentLength : List Char → Option Nat
  | [] => none
  | '*' :: '/' :: _ => some 2
  | _ :: r => (blockCommentLength r).map (· + 1)

def commentLength : List Char → Option Nat
  | '/' :: '/' :: r => some ((r.takeWhile fun ch ↦ !isLineBreak ch).length + 2)
  | '/' :: '*' :: r => (blockCommentLength r).map (· + 2)
  | _ => none

def skipBlanks : Nat → Cursor → Cursor
  | 0, c => c
  | n + 1, c =>
    match c.rest with
    | [] => c
    | ch :: _ =>
      if isBlank ch then skipBlanks n (c.advance 1)
      else
        match commentLength c.rest with
        | none => c
        | some k =>
          let e := c.advance k
          skipBlanks n { e with comments := c.node .comment e :: e.comments }

def next (c : Cursor) : Cursor := skipBlanks (c.size + 1) c

def breaksLine (c : Cursor) : Bool :=
  let e := c.next
  (c.rest.take (e.offset - c.offset)).any fun ch ↦ ch != '\r' && isLineBreak ch

def startsWith (c : Cursor) (s : String) : Bool := s.toList.isPrefixOf c.rest

/-- After a line break, a token that would go on with the statement keeps it open. -/
def opensStatement : List Char → Bool
  | '.' :: r => r.head?.any isDigit
  | '+' :: r => r.head? == some '+'
  | '-' :: r => r.head? == some '-'
  | '!' :: r => r.head? != some '='
  | 'i' :: 'n' :: r =>
    let letter (ch : Option Char) : Bool := ch.any fun c ↦ c.isAlpha || c > '\x7f'
    letter r.head? && !("stanceof".toList.isPrefixOf r && !letter (r.drop 8).head?)
  | ch :: _ => !"\x60,:;*%><=[(?^|&/".toList.contains ch
  | [] => true

def endsStatement (c : Cursor) : Bool :=
  let e := c.next
  match e.rest with
  | [] => true
  | '\x7d' :: _ => true
  | r => c.breaksLine && opensStatement r

/-- What ends in no expression may end here without a semicolon: parentheses and brackets on the
next line start something new. A brace with a colon after it belongs to a typed pattern. -/
def endsDeclaration (c : Cursor) : Bool :=
  let e := c.next
  match e.rest with
  | '\x7d' :: r => (r.dropWhile isBlank).head? != some ':'
  | '(' :: _ | '[' :: _ => c.breaksLine
  | _ => c.endsStatement

end Cursor

end CommandCoverage.Script
