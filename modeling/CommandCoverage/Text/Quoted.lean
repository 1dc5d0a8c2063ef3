import CommandCoverage.Text.Blank

namespace CommandCoverage.Text

def hexDigits (count n : Nat) : List Char :=
  (List.range count).reverse.map fun k ↦ Nat.digitChar (n / Nat.pow 16 k % 16)

def isUnseen (c : Char) : Bool :=
  c < ' ' || ('\x7f' ≤ c && c ≤ '\u009f') || c == '\u00ad' || (c != ' ' && isBlank c)

def quotedChar (quote c : Char) : List Char :=
  match c with
  | '\\' => ['\\', '\\']
  | '\n' => ['\\', 'n']
  | '\r' => ['\\', 'r']
  | '\t' => ['\\', 't']
  | c =>
    if c == quote then ['\\', c]
    else if !isUnseen c then [c]
    else if c.toNat < 0x100 then '\\' :: 'x' :: hexDigits 2 c.toNat
    else '\\' :: 'u' :: hexDigits 4 c.toNat

/-- A text in single quotes, or in double quotes if it has only single ones in it. -/
def quoted (s : String) : String :=
  let cs := s.toList
  let quote := if cs.contains '\'' && !cs.contains '\"' then '\"' else '\''
  String.ofList (quote :: cs.flatMap (quotedChar quote) ++ [quote])

end CommandCoverage.Text
