namespace CommandCoverage.Text

structure CharSet where
  negated : Bool
  ranges : List (Char × Char)
  deriving Repr

def CharSet.contains (s : CharSet) (c : Char) : Bool :=
  s.negated != s.ranges.any fun (a, b) ↦ a ≤ c && c ≤ b

inductive Wildcard where
  | star
  | any
  | oneOf (s : CharSet)
  | literal (c : Char)
  deriving Repr

namespace Glob

/-- Cuts the inside of brackets at the dashes that make ranges. A dash counts from the second
character of a piece on; at the end it stands for itself. -/
def cutRanges : Nat → List Char → List (List Char)
  | 0, cs => [cs]
  | n + 1, cs =>
    let from_ := if cs.head? == some '!' then 2 else 1
    cutFrom n from_ cs
where
  cutFrom : Nat → Nat → List Char → List (List Char)
    | 0, _, cs => [cs]
    | n + 1, k, cs =>
      let ahead := (cs.drop k).takeWhile (· != '-')
      let at_ := k + ahead.length
      if at_ < cs.length then
        let rest := cs.drop (at_ + 1)
        if rest.isEmpty then [cs] else cs.take at_ :: cutFrom n 2 rest
      else [cs]

def dropEmptyRanges : List (List Char) → List (List Char)
  | [] => []
  | p :: ps =>
    match dropEmptyRanges ps with
    | [] => [p]
    | q :: qs =>
      match p.getLast?, q with
      | some a, b :: r => if b < a then (p.dropLast ++ r) :: qs else p :: q :: qs
      | _, _ => p :: q :: qs

/-- The ranges of the pieces: from the last of each to the first of the next, and the rest singly.
The first character of a piece is taken when a range ends there. -/
def rangesOf : Bool → List (List Char) → List (Char × Char)
  | _, [] => []
  | taken, [p] => (if taken then p.drop 1 else p).map fun c ↦ (c, c)
  | taken, p :: q :: ps =>
    let own := if taken then p.drop 1 else p
    match own.getLast?, q.head? with
    | some a, some b => own.dropLast.map (fun c ↦ (c, c)) ++ (a, b) :: rangesOf true (q :: ps)
    | _, _ => own.map (fun c ↦ (c, c)) ++ ('-', '-') :: rangesOf false (q :: ps)

def charSet (inside : List Char) : CharSet :=
  let pieces := dropEmptyRanges (cutRanges (inside.length + 1) inside)
  match pieces with
  | ('!' :: p) :: ps => ⟨true, rangesOf false (p :: ps)⟩
  | ps => ⟨false, rangesOf false ps⟩

/-- Length of the inside of brackets; none when they are not closed. A closing bracket at its start
belongs to it. -/
def insideLength (cs : List Char) : Option Nat :=
  let k := if cs.head? == some '!' then 1 else 0
  let k := if (cs.drop k).head? == some ']' then k + 1 else k
  let n := k + ((cs.drop k).takeWhile (· != ']')).length
  if n < cs.length then some n else none

def parseUpTo : Nat → List Char → List Wildcard
  | 0, _ => []
  | _, [] => []
  | n + 1, c :: cs =>
    if c == '*' then .star :: parseUpTo n (cs.dropWhile (· == '*'))
    else if c == '?' then .any :: parseUpTo n cs
    else if c == '[' then
      match insideLength cs with
      | none => .literal c :: parseUpTo n cs
      | some k => .oneOf (charSet (cs.take k)) :: parseUpTo n (cs.drop (k + 1))
    else .literal c :: parseUpTo n cs

def parse (pattern : String) : List Wildcard :=
  let cs := pattern.toList
  parseUpTo cs.length cs

def rests : List Char → List (List Char)
  | [] => [[]]
  | c :: cs => (c :: cs) :: rests cs

def accepts : List Wildcard → List Char → Bool
  | [], cs => cs.isEmpty
  | .star :: ws, cs => (rests cs).any (accepts ws)
  | .any :: ws, cs =>
    match cs with
    | [] => false
    | _ :: r => accepts ws r
  | .oneOf s :: ws, cs =>
    match cs with
    | [] => false
    | c :: r => s.contains c && accepts ws r
  | .literal a :: ws, cs =>
    match cs with
    | [] => false
    | c :: r => a == c && accepts ws r

end Glob

def matchesGlob (pattern name : String) : Bool := Glob.accepts (Glob.parse pattern) name.toList

def isGlob (pattern : String) : Bool := pattern.toList.any fun c ↦ c == '*' || c == '?' || c == '['

def isInfix (p s : List Char) : Bool := (Glob.rests s).any p.isPrefixOf

def matchesInclude (patterns : List String) (name : String) : Bool :=
  patterns.any fun p ↦
    if isGlob p then matchesGlob p name else p.toList.isSuffixOf name.toList

/-- A part of a path contains one of the patterns, or matches one with wildcards. -/
def matchesExclude (patterns : List String) (name : String) : Bool :=
  patterns.any fun p ↦ if isGlob p then matchesGlob p name else isInfix p.toList name.toList

end CommandCoverage.Text
