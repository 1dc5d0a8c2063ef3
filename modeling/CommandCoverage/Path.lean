namespace CommandCoverage.Path

/-- The parts between slashes, as many as there are slashes and one more. -/
def parts (p : String) : List String := (p.toList.splitOn '/').map String.ofList

/-- The parts that lead somewhere else: neither empty nor a dot. -/
def names (p : String) : List String := (parts p).filter fun s ↦ !s.isEmpty && s != "."

/-- The name of an entry of a directory, as it can stand in a path. -/
def isName (s : String) : Bool := !s.isEmpty && s != "." && s != ".." && !s.toList.contains '/'

def isAbsolute (p : String) : Bool := p.toList.head? == some '/'

def join (a b : String) : String :=
  if isAbsolute b then b
  else if a.isEmpty || a.toList.getLast? == some '/' then a ++ b
  else a ++ "/" ++ b

/-- What stands before the last slash, without the slashes at its end unless it is a root. -/
def directory (p : String) : String :=
  let head := (p.toList.reverse.dropWhile (· != '/')).reverse
  let trimmed := (head.reverse.dropWhile (· == '/')).reverse
  String.ofList (if trimmed.isEmpty then head else trimmed)

def baseName (p : String) : String :=
  String.ofList (p.toList.reverse.takeWhile (· != '/')).reverse

def normalizeParts (absolute : Bool) : List String → List String → List String
  | kept, [] => kept.reverse
  | kept, p :: ps =>
    if p.isEmpty || p == "." then normalizeParts absolute kept ps
    else if p != ".." then normalizeParts absolute (p :: kept) ps
    else
      match kept with
      | [] => normalizeParts absolute (if absolute then [] else [p]) ps
      | k :: ks =>
        if k == ".." then normalizeParts absolute (p :: kept) ps
        else normalizeParts absolute ks ps

/-- What a path starts with when it is normalized. Exactly two leading slashes are kept. -/
def root (p : String) : String :=
  match p.toList with
  | '/' :: '/' :: '/' :: _ => "/"
  | '/' :: '/' :: _ => "//"
  | '/' :: _ => "/"
  | _ => ""

/-- Without empty parts, `.` and `..` where they can be resolved. -/
def normalize (p : String) : String :=
  let body := "/".intercalate (normalizeParts (isAbsolute p) [] (parts p))
  if !isAbsolute p && body.isEmpty then "." else root p ++ body

/-- The absolute form of a path in a working directory. -/
def absolute (workingDirectory p : String) : String := normalize (join workingDirectory p)

def extensionLength (name : List Char) : Nat :=
  let ext := name.reverse.takeWhile (· != '.')
  let stem := name.take (name.length - ext.length - 1)
  if ext.length == name.length || stem.all (· == '.') then 0 else ext.length + 1

def splitExtension (p : String) : String × String :=
  let cs := p.toList
  let k := extensionLength (baseName p).toList
  (String.ofList (cs.take (cs.length - k)), String.ofList (cs.drop (cs.length - k)))

def lastPart (p : String) : String := (names p).getLast?.getD ""

/-- The ending of the last part from its last dot; a dot at either end of it starts none. -/
def suffix (p : String) : String :=
  let name := (lastPart p).toList
  let ext := name.reverse.takeWhile (· != '.')
  if ext.isEmpty || ext.length + 1 ≥ name.length then ""
  else String.ofList ('.' :: ext.reverse)

end CommandCoverage.Path
