import CommandCoverage.Command.Basic
import CommandCoverage.Text.Digit
import CommandCoverage.Text.Order

namespace CommandCoverage.Invocation

def startsWithDash (t : String) : Bool := t.toList.head? == some '-'

structure Leading where
  path : List String := []
  positionals : List String := []
  consumed : Nat := 0
  deriving DecidableEq, Repr

/-- A command ends the path at a token that is no subcommand if it takes positionals or has no
subcommands. -/
def endsPath (c : Command) : Bool := !c.positionals.isEmpty || c.subcommands.isEmpty

def splitFrom : Option Command → Leading → List String → Leading
  | _, l, [] => l
  | node, l, t :: ts =>
    if startsWithDash t then l
    else
      let l := { l with consumed := l.consumed + 1 }
      match node.bind (·.child t), l.positionals.isEmpty with
      | some child, true => splitFrom (some child) { l with path := l.path ++ [t] } ts
      | _, none? =>
        if !none? || node.any endsPath then
          splitFrom node { l with positionals := l.positionals ++ [t] } ts
        else splitFrom none { l with path := l.path ++ [t] } ts

/-- The tokens before the first with a dash, as far as they name subcommands, and the others. An
unknown token that can be no positional stays in the path. -/
def splitPath (root : Command) (tokens : List String) : Leading :=
  splitFrom (some root) {} tokens

/-- What is left after an exponent with at least one digit, or without an exponent. -/
def afterExponent (cs : List Char) : List Char :=
  match cs with
  | e :: r =>
    if e == 'e' || e == 'E' then
      let r := if r.head? == some '-' || r.head? == some '+' then r.tail else r
      if r.head?.any Text.isDigit then r.dropWhile Text.isDigit else cs
    else cs
  | [] => []

/-- What is left after digits with a point among, after or before them; none without a digit. -/
def afterDigits (cs : List Char) : Option (List Char) :=
  let r := cs.dropWhile Text.isDigit
  if cs.head?.any Text.isDigit then
    some (if r.head? == some '.' then r.tail.dropWhile Text.isDigit else r)
  else if cs.head? == some '.' && cs.tail.head?.any Text.isDigit then
    some (cs.tail.dropWhile Text.isDigit)
  else none

def isNumber (cs : List Char) : Bool :=
  match (afterDigits cs).map afterExponent with
  | some [] => true
  | some ['\n'] => true
  | _ => false

def isOptionValue (t : String) : Bool :=
  match t.toList with
  | '-' :: r => r.isEmpty || isNumber r
  | _ => true

def builtinFlags : List String := ["help", "h", "version", "v"]

def tokenNames (lookup : String → Option Arg) (t : String) : List String × Bool :=
  let cs := t.toList
  let beforeValue (r : List Char) : String := String.ofList (r.takeWhile (· != '='))
  match cs with
  | '-' :: '-' :: r =>
    let name := beforeValue r
    let name := if "no-".isPrefixOf name && (lookup name).isNone then
      String.ofList (name.toList.drop 3) else name
    ([name], r.contains '=')
  | _ =>
    let r := cs.drop 1
    if r.contains '=' then ([beforeValue r], true)
    else if r.length > 1 then (r.map fun c ↦ String.ofList [c], false)
    else ([String.ofList r], false)

def takesValue (lookup : String → Option Arg) (name : String) : Bool :=
  (lookup name).any (!·.isFlag)

/-- What the tokens after the path ask for: names of flags and options as they are written, and
positionals. -/
structure Request where
  names : List String := []
  positionals : List String := []
  deriving DecidableEq, Repr

def readTokens (lookup : String → Option Arg) : Nat → Request → List String → Request
  | _, r, [] => r
  | wanted, r, t :: ts =>
    if 0 < wanted && isOptionValue t then readTokens lookup (wanted - 1) r ts
    else if t == "--" then { r with positionals := r.positionals ++ ts }
    else if !startsWithDash t || t == "-" then
      readTokens lookup 0 { r with positionals := r.positionals ++ [t] } ts
    else
      let (names, hasValue) := tokenNames lookup t
      let wanted := if hasValue then 0 else names.countP (takesValue lookup)
      readTokens lookup wanted { r with names := r.names ++ names } ts

/-- The flag that a name uses: a declared one, or one that is not declared and not built in. -/
def flagOf (lookup : String → Option Arg) (name : String) : Option String :=
  match lookup name with
  | none => if builtinFlags.contains name then none else some name
  | some a => if a.isFlag then some a.name else none

def optionOf (lookup : String → Option Arg) (name : String) : Option String :=
  ((lookup name).filter (!·.isFlag)).map (·.name)

/-- What a command line uses: a path, sets of flags and options by their declared names, and the
positionals. -/
structure Classified where
  path : List String
  flags : List String
  options : List String
  positionals : List String
  deriving DecidableEq, Repr

/-- The path to the command whose arguments the tokens may use: the root, when they lead to none. -/
def placeOf (root : Command) (tokens : List String) : List String :=
  let l := splitPath root tokens
  if (root.resolve l.path).isSome then l.path else []

def meaning (root : Command) (tokens : List String) (name : String) : Option Arg :=
  (root.lookup name (placeOf root tokens)).map (·.2)

def request (root : Command) (tokens : List String) : Request :=
  let l := splitPath root tokens
  readTokens (meaning root tokens) 0 { positionals := l.positionals } (tokens.drop l.consumed)

/-- Interprets tokens. Names that are not declared count as flags. -/
def classify (root : Command) (tokens : List String) : Classified :=
  let r := request root tokens
  { path := (splitPath root tokens).path
    flags := Text.sortedSet (r.names.filterMap (flagOf (meaning root tokens)))
    options := Text.sortedSet (r.names.filterMap (optionOf (meaning root tokens)))
    positionals := r.positionals }

end CommandCoverage.Invocation
