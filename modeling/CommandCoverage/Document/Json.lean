import CommandCoverage.Decimal.Shortest
import CommandCoverage.Document.Basic

namespace CommandCoverage.Document

def hexDigits (n : Nat) : List Char :=
  [n / 4096, n / 256, n / 16, n].map fun k ↦ Nat.digitChar (k % 16)

def escapedUnit (n : Nat) : List Char := '\\' :: 'u' :: hexDigits n

def escapedUnits (c : Char) : List Char :=
  if c.toNat < 0x10000 then escapedUnit c.toNat
  else
    let n := c.toNat - 0x10000
    escapedUnit (0xd800 + n / 0x400) ++ escapedUnit (0xdc00 + n % 0x400)

def jsonChar (c : Char) : List Char :=
  match c with
  | '\"' => ['\\', '\"']
  | '\\' => ['\\', '\\']
  | '\n' => ['\\', 'n']
  | '\r' => ['\\', 'r']
  | '\t' => ['\\', 't']
  | '\x08' => ['\\', 'b']
  | '\x0c' => ['\\', 'f']
  | c => if ' ' ≤ c && c ≤ '~' then [c] else escapedUnits c

def jsonText (s : String) : String :=
  "\"" ++ String.ofList (s.toList.flatMap jsonChar) ++ "\""

def jsonNumber (x : Float) : String :=
  if x.isNaN then "NaN" else if x.isInf then signText x ++ "Infinity" else floatText x

mutual

def jsonAt (indent : Nat) : Document → String
  | null => "null"
  | bool b => if b then "true" else "false"
  | nat n => Nat.repr n
  | number x => jsonNumber x
  | text s => jsonText s
  | list xs =>
    if xs.isEmpty then "[]"
    else "[" ++ ",".intercalate (jsonItems (indent + 2) xs) ++ newline indent ++ "]"
  | fields es =>
    if es.isEmpty then "\x7b\x7d"
    else "\x7b" ++ ",".intercalate (jsonEntries (indent + 2) es) ++ newline indent ++ "\x7d"

def jsonItems (indent : Nat) : List Document → List String
  | [] => []
  | x :: xs => (newline indent ++ jsonAt indent x) :: jsonItems indent xs

def jsonEntries (indent : Nat) : List (String × Document) → List String
  | [] => []
  | (k, x) :: es =>
    (newline indent ++ jsonText k ++ ": " ++ jsonAt indent x) :: jsonEntries indent es

end

def json (d : Document) : String := d.jsonAt 0

end CommandCoverage.Document
