import CommandCoverage.Text.Quoted

namespace CommandCoverage.Text

/-- The lone surrogates that characters stand for. A string has none of its own, but the names of
files that are no UTF-8 have some: characters that occur nowhere else stand for them. -/
abbrev Surrogates := Char → Option Nat

/-- Why a text has no bytes: the first surrogate in it, its place, and that of the last one in a row
with it. -/
structure EncodeFault where
  code : Nat
  first : Nat
  last : Nat
  deriving DecidableEq, Repr

def EncodeFault.message (f : EncodeFault) : String :=
  if f.first == f.last then
    "'utf-8' codec can't encode character '\\u" ++ String.ofList (hexDigits 4 f.code) ++
      "' in position " ++ Nat.repr f.first ++ ": surrogates not allowed"
  else
    "'utf-8' codec can't encode characters in position " ++ Nat.repr f.first ++ "-" ++
      Nat.repr f.last ++ ": surrogates not allowed"

def encodeFaultFrom (s : Surrogates) : Nat → List Char → Option EncodeFault
  | _, [] => none
  | n, c :: cs =>
    match s c with
    | none => encodeFaultFrom s (n + 1) cs
    | some code => some ⟨code, n, n + (cs.takeWhile fun d ↦ (s d).isSome).length⟩

def encodeFault? (s : Surrogates) (text : String) : Option EncodeFault :=
  encodeFaultFrom s 0 text.toList

end CommandCoverage.Text
