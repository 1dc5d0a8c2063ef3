import CommandCoverage.CommandLine.Basic
import Std.Time.DateTime

namespace CommandCoverage.Main

def skipped : List String := ["node_modules", ".git"]

mutual

partial def loadEntry (e : IO.FS.DirEntry) : IO Entry := do
  match (← e.path.symlinkMetadata).type with
  | .dir => if skipped.contains e.fileName then return .directory [] else
      return .directory (← loadBelow e)
  | .file => return .file (← IO.FS.readBinFile e.path).toList
  | .symlink =>
    let target ← IO.FS.realPath e.path
    if ← target.isDir then return .link target.toString
    else return .file (← IO.FS.readBinFile target).toList
  | .other => return .link e.path.toString

partial def loadBelow (e : IO.FS.DirEntry) : IO (List (String × Entry)) := do
  let found ← (← e.path.readDir).toList.filterMapM fun c ↦ do
    try return some (c.fileName, ← loadEntry c) catch _ => return none
  return found

end

def loadTree : IO FileTree := do
  let here ← IO.currentDir
  let parts := (Path.parts here.toString).filter (!·.isEmpty)
  let entries ← loadBelow { root := here, fileName := "" }
  let root := Entry.put (.directory entries) parts (.directory [])
  return ({ root, workingDirectory := parts } : FileTree).limited

def loadEnvironment : IO Environment := do
  let values ← (Settings.fieldNames.map Settings.variable_).mapM fun n ↦ do
    return (← IO.getEnv n).map fun v ↦ (n, v)
  return values.reduceOption

def twoDigits (n : Int) : String := paddedDigits n.toNat 2

def now : IO String := do
  let t := Std.Time.PlainDateTime.ofWallTime ((← Std.Time.Timestamp.now).toWallTime .zero)
  return toString t.year ++ "-" ++ twoDigits t.month.val ++ "-" ++ twoDigits t.day.val ++ "T" ++
    twoDigits t.hour.val ++ ":" ++ twoDigits t.minute.val ++ ":" ++ twoDigits t.second.val ++ "." ++
    paddedDigits (t.nanosecond.val.toNat / 1000) 6 ++ "+00:00"

open CommandLine in
def save (o : Outcome) : IO Outcome := do
  match o.ending.file with
  | none => return o
  | some (path, text) =>
    try
      IO.FS.writeFile path text
      return o
    catch _ => return o.unwritten

end CommandCoverage.Main

open CommandCoverage Main in
def main (words : List String) : IO UInt32 := do
  let files ← loadTree
  let environment := (← loadEnvironment).withFiles files
  let outcome ← save (CommandLine.run { environment, files, date := ← now } words)
  IO.eprint outcome.stderr
  IO.print outcome.stdout
  return outcome.exitCode.toUInt32
