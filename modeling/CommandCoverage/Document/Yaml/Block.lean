import CommandCoverage.Decimal.Shortest
import CommandCoverage.Document.Yaml.Scalar

namespace CommandCoverage.Document

namespace Yaml

/-- A number with a point, also where it has an exponent. -/
def number (x : Float) : String :=
  if x.isNaN then ".nan" else if x.isInf then signText x ++ ".inf"
  else
    let s := floatText x
    let mantissa := s.toList.takeWhile (· != 'e')
    if mantissa.contains '.' then s
    else String.ofList mantissa ++ ".0" ++ String.ofList (s.toList.drop mantissa.length)

def isShortKey (k : String) : Bool :=
  0 < k.length && k.length ≤ 122 && !k.toList.any isBreak

mutual

def afterKey (indent column : Nat) : Document → String
  | .fields es =>
    if es.isEmpty then " \x7b\x7d" else newline (indent + 2) ++ entries (indent + 2) es
  | .list xs => if xs.isEmpty then " []" else newline indent ++ items indent xs
  | .text s => " " ++ scalar (indent + 2) (column + 1) true s
  | .null => " null"
  | .bool b => if b then " true" else " false"
  | .nat n => " " ++ Nat.repr n
  | .number x => " " ++ number x

def afterMark (indent : Nat) : Document → String
  | .fields es => if es.isEmpty then " \x7b\x7d" else " " ++ entries (indent + 2) es
  | .list xs => if xs.isEmpty then " []" else " " ++ items (indent + 2) xs
  | .text s => " " ++ scalar (indent + 2) (indent + 2) true s
  | .null => " null"
  | .bool b => if b then " true" else " false"
  | .nat n => " " ++ Nat.repr n
  | .number x => " " ++ number x

/-- The entries at the column `indent`, where the first one is to be written. -/
def entries (indent : Nat) : List (String × Document) → String
  | [] => ""
  | (k, x) :: es =>
    (if isShortKey k then
      let key := scalar (indent + 2) indent false k
      key ++ ":" ++ afterKey indent (indent + key.length + 1) x
    else
      "? " ++ scalar (indent + 2) (indent + 2) true k ++ newline indent ++ ":" ++
        afterMark indent x) ++
      if es.isEmpty then "" else newline indent ++ entries indent es

def items (indent : Nat) : List Document → String
  | [] => ""
  | x :: xs =>
    "-" ++ afterMark indent x ++ if xs.isEmpty then "" else newline indent ++ items indent xs

end

end Yaml

def yaml : Document → String
  | fields es => if es.isEmpty then "\x7b\x7d\n" else Yaml.entries 0 es ++ "\n"
  | list xs => if xs.isEmpty then "[]\n" else Yaml.items 0 xs ++ "\n"
  | d => ((Yaml.afterMark 0 d).drop 1).toString ++ "\n"

end CommandCoverage.Document
