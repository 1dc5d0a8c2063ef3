import CommandCoverage.Path
import CommandCoverage.Text.Surrogate

namespace CommandCoverage

inductive Entry where
  | file (bytes : List UInt8)
  | link (target : String)
  | directory (entries : List (String × Entry))
  deriving Inhabited

structure SystemFault where
  code : Nat
  reason : String
  deriving DecidableEq, Repr

namespace SystemFault

def kind (f : SystemFault) : String :=
  if f.code == 1 || f.code == 13 then "PermissionError"
  else if f.code == 2 then "FileNotFoundError"
  else if f.code == 110 then "TimeoutError"
  else "OSError"

/-- The errors that only say that there is nothing: no entry, no file, no directory, or a loop. -/
def meansAbsent (f : SystemFault) : Bool := [2, 9, 20, 40].contains f.code

def message (f : SystemFault) : String := "[Errno " ++ Nat.repr f.code ++ "] " ++ f.reason

end SystemFault

/-- What the operating system refuses to do with a path. -/
inductive Refusal where
  | look (f : SystemFault)
  | measure
  | permission
  | read (reason : String)
  deriving DecidableEq, Repr

/-- The files from the root on, what is refused for a path by its parts from the root, and the lone
surrogates that characters of names stand for. -/
structure FileTree where
  root : Entry := .directory []
  workingDirectory : List String := []
  refusal : List String → Option Refusal := fun _ ↦ none
  surrogates : Text.Surrogates := fun _ ↦ none
  deriving Inhabited

namespace Entry

def entries : Entry → List (String × Entry)
  | directory es => es
  | _ => []

def isDirectory : Entry → Bool
  | directory _ => true
  | _ => false

def isFile : Entry → Bool
  | file _ => true
  | _ => false

def isLink : Entry → Bool
  | link _ => true
  | _ => false

def put (new : Entry) : List String → Entry → Entry
  | [], _ => new
  | p :: ps, e =>
    let es := e.entries
    let inner := put new ps ((es.lookup p).getD (directory []))
    directory (if (es.lookup p).isSome then es.map fun (n, x) ↦ (n, if n == p then inner else x)
      else es ++ [(p, inner)])

def remove : List String → Entry → Entry
  | [], e => e
  | [p], e => directory (e.entries.filter (·.1 != p))
  | p :: ps, e => directory (e.entries.map fun (n, x) ↦ (n, if n == p then x.remove ps else x))

end Entry

namespace FileTree

/-- A place in a tree: the directories from the root, the innermost first, and what is there. -/
structure Place where
  above : List Entry
  entry : Entry
  deriving Inhabited

inductive Step where
  | found (p : Place)
  | missing
  /-- A link was met: where it stands, where it leads, and the parts of the path after it. -/
  | linked (above : List Entry) (target : String) (rest : List String)

def advance : Place → List String → Step
  | p, [] => .found p
  | p, part :: rest =>
    if !p.entry.isDirectory then .missing
    else if part.isEmpty || part == "." then advance p rest
    else if part == ".." then
      match p.above with
      | [] => advance p rest
      | d :: ds => advance ⟨ds, d⟩ rest
    else
      match p.entry.entries.lookup part with
      | none => .missing
      | some (.link target) => .linked (p.entry :: p.above) target rest
      | some e => advance ⟨p.entry :: p.above, e⟩ rest

/-- The place that a directory stands for, from the list of it and those above. -/
def placeOf : List Entry → Place
  | [] => ⟨[], .directory []⟩
  | d :: ds => ⟨ds, d⟩

/-- Follows the parts of a path through at most `links` links. -/
def follow (root : Entry) : Nat → Place → List String → Option Place
  | links, p, parts =>
    match advance p parts with
    | .found q => some q
    | .missing => none
    | .linked above target rest =>
      match links with
      | 0 => none
      | links + 1 =>
        follow root links (if Path.isAbsolute target then ⟨[], root⟩ else placeOf above)
          (Path.parts target ++ rest)

def mostLinks : Nat := 40

def top (t : FileTree) : Place := ⟨[], t.root⟩

/-- The working directory. It goes by the names on the way to it, none of which is a link. -/
def here (t : FileTree) : Option Place :=
  match advance t.top t.workingDirectory with
  | .found p => if t.workingDirectory.all Path.isName then some p else none
  | _ => none

def absolute (t : FileTree) (path : String) : String :=
  Path.absolute ("/" ++ "/".intercalate t.workingDirectory) path

def spelledParts (t : FileTree) (path : String) : List String := Path.names (t.absolute path)

def refusal? (t : FileTree) (path : String) : Option Refusal := t.refusal (t.spelledParts path)

def lookFault? (t : FileTree) (path : String) : Option SystemFault :=
  match t.refusal? path with
  | some (.look f) => if f.meansAbsent then none else some f
  | _ => none

def standsAt (t : FileTree) (path : String) : Option Entry :=
  let start := if Path.isAbsolute path then some t.top else t.here
  if path.isEmpty then none
  else (start.bind fun p ↦ follow t.root mostLinks p (Path.parts path)).map (·.entry)

def get? (t : FileTree) (path : String) : Option Entry :=
  match t.refusal? path with
  | some (.look _) => none
  | _ => t.standsAt path

def isFile (t : FileTree) (path : String) : Bool := (t.get? path).any Entry.isFile

/-- A path without empty parts and `.`; the working directory is a dot. -/
def plainPath (path : String) : String :=
  let root := if Path.isAbsolute path then "/" else ""
  let body := "/".intercalate (Path.names path)
  if root.isEmpty && body.isEmpty then "." else root ++ body

def write (t : FileTree) (path : String) (e : Entry) : FileTree :=
  { t with root := Entry.put e (t.spelledParts path) t.root }

def delete (t : FileTree) (path : String) : FileTree :=
  { t with root := t.root.remove (t.spelledParts path) }

def nameSize (s : Text.Surrogates) (name : String) : Nat :=
  name.toList.foldl (fun n c ↦ n + if (s c).isSome then 1 else c.utf8Size) 0

def isOverlong (s : Text.Surrogates) : List String → Entry → Bool
  | [], _ => false
  | p :: ps, e =>
    e.isDirectory && (255 < nameSize s p || ((e.entries.lookup p).any (isOverlong s ps)))

def limited (t : FileTree) : FileTree :=
  { t with refusal := fun ps ↦
      if isOverlong t.surrogates ps t.root then some (.look ⟨36, "File name too long"⟩) else none }

end FileTree

end CommandCoverage
