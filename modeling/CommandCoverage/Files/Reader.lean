import CommandCoverage.Failure
import CommandCoverage.Files.Tree
import CommandCoverage.Text.Glob
import CommandCoverage.Text.Order
import CommandCoverage.Text.Utf8

namespace CommandCoverage

inductive ReadFault where
  | missing
  | notFile
  | tooLarge (size limit : Nat)
  | notText (fault : Text.Utf8Fault) (offset : Nat)
  | denied
  | broken (reason : String)
  | unseen (f : SystemFault)
  deriving DecidableEq, Repr

namespace ReadFault

def reason : ReadFault → String
  | missing => "file not found"
  | notFile => "path is not a regular file"
  | tooLarge size limit =>
    "file too large (" ++ Nat.repr size ++ " bytes > " ++ Nat.repr limit ++ " bytes)"
  | notText fault offset =>
    "not valid UTF-8 (" ++ fault.reason ++ " at byte " ++ Nat.repr offset ++ ")"
  | denied => "permission denied"
  | broken reason => "error reading file: " ++ reason
  | unseen f => f.message

def suggestions (path : String) : ReadFault → List String
  | missing =>
    ["Check that the path is correct relative to the working directory",
      "Run from the project root or pass an absolute path"]
  | notFile => ["Pass a JavaScript/TypeScript file, not a directory"]
  | tooLarge .. =>
    ["Check that this is the file you meant to analyze",
      "Raise the limit with CLICOV_MAX_FILE_SIZE"]
  | notText .. => ["Save the file as UTF-8"]
  | denied => ["Check permissions: ls -la " ++ path]
  | broken _ | unseen _ => []

end ReadFault

/-- The failure of what looks a path up and does not handle the error. -/
def SystemFault.failure (f : SystemFault) (path : String) : Failure :=
  .unexpected f.kind (f.message ++ ": " ++ Text.quoted path)

/-- Everything but an error of looking it up is reported of the path itself. -/
def ReadFault.failure (path : String) : ReadFault → Failure
  | .unseen f => f.failure (FileTree.plainPath path)
  | f => .unreadable path f.reason (f.suggestions path)

structure SourceText where
  path : String
  content : String
  size : Nat
  deriving DecidableEq, Repr

def SourceText.lineCount (s : SourceText) : Nat := s.content.toList.count '\n' + 1

namespace FileTree

def readFault? (t : FileTree) (limit : Nat) (path : String) : Except ReadFault SourceText :=
  match t.get? (plainPath path) with
  | none => .error ((t.lookFault? (plainPath path)).elim .missing .unseen)
  | some (.file bytes) =>
    match t.refusal? (plainPath path) with
    | some .measure => .error .denied
    | refusal =>
      if limit < bytes.length then .error (.tooLarge bytes.length limit)
      else
        match refusal with
        | some .permission => .error .denied
        | some (.read reason) => .error (.broken reason)
        | _ =>
          match Text.decodeUtf8 bytes with
          | .ok content => .ok ⟨path, content, bytes.length⟩
          | .error (fault, offset) => .error (.notText fault offset)
  | some _ => .error .notFile

def read (t : FileTree) (limit : Nat) (path : String) : Except Failure SourceText :=
  (t.readFault? limit path).mapError (·.failure path)

/-- Which names are listed, and which are not even entered. -/
structure Selection where
  include_ : List String
  exclude : List String

namespace Selection

def excludes (s : Selection) (name : String) : Bool := Text.matchesExclude s.exclude name

def lists (s : Selection) (name : String) : Bool :=
  !s.excludes name && Text.matchesInclude s.include_ name

end Selection

def byName {α : Type} (es : List (String × α)) : List (String × α) :=
  es.mergeSort fun a b ↦ decide (a.1 ≤ b.1)

mutual

/-- The selected files below a directory: first those in it, then those of its subdirectories, each
in the order of their names. Links to directories are not entered; `leads` tells them from links to
files. -/
def listBelow (s : Selection) (leads : String → Bool) (path : String) : Entry → List String
  | .directory es =>
    let isFile (n : String) (x : Entry) : Bool :=
      !x.isDirectory && !(x.isLink && leads (Path.join path n)) && s.lists n
    (byName (es.filter fun (n, x) ↦ isFile n x)).map (fun (n, _) ↦ Path.join path n) ++
      (byName (listEach s leads path es)).flatMap (·.2)
  | _ => []

def listEach (s : Selection) (leads : String → Bool) (path : String) :
    List (String × Entry) → List (String × List String)
  | [] => []
  | (n, x) :: es =>
    if x.isDirectory && !s.excludes n then
      (n, listBelow s leads (Path.join path n) x) :: listEach s leads path es
    else listEach s leads path es

end

def listFiles (t : FileTree) (s : Selection) (path : String) : Except Failure (List String) :=
  match t.get? (plainPath path) with
  | none =>
    match t.lookFault? (plainPath path) with
    | some f => .error (f.failure (plainPath path))
    | none => .error (.undiscoverable path "test directory not found" [])
  | some e =>
    if !e.isDirectory then .error (.undiscoverable path "test path is not a directory" [])
    else if path.isEmpty then
      .error (.undiscoverable path "cannot read directory: No such file or directory" [])
    else
      let leads (p : String) : Bool := (t.get? p).any Entry.isDirectory
      .ok (listBelow s leads path e)

/-- The extensions that an import may leave out, in the order in which they are tried. -/
def moduleExtensions : List String := [".js", ".mjs", ".cjs", ".ts", ".mts", ".cts"]

/-- The paths to try for an import: the specifier itself, with the extension of the source it was
compiled from, with an extension added, and as a directory. -/
def moduleCandidates (specifier fromFile : String) : List String :=
  let base := Path.normalize (Path.join (Path.directory fromFile) specifier)
  let (stem, ext) := Path.splitExtension base
  let sources := if [".js", ".mjs", ".cjs"].contains ext then
    [".ts", ".mts", ".cts"].map (stem ++ ·) else []
  base :: sources ++ moduleExtensions.map (base ++ ·) ++
    moduleExtensions.map fun e ↦ Path.join base ("index" ++ e)

/-- The file that an import from a file means; packages are not looked up. -/
def resolveModule (t : FileTree) (specifier fromFile : String) : Option String :=
  match specifier.toList.head? with
  | some '.' | some '/' => (moduleCandidates specifier fromFile).find? t.isFile
  | _ => none

end FileTree

end CommandCoverage
