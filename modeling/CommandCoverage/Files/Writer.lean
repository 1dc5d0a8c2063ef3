import CommandCoverage.Files.Reader

namespace CommandCoverage.FileTree

def isWritable (t : FileTree) (path : String) : Bool :=
  let parent := Path.directory path
  (t.get? (if parent.isEmpty then "." else parent)).any Entry.isDirectory &&
    !(t.get? path).any Entry.isDirectory

def save? (t : FileTree) (path text : String) : Option FileTree :=
  if t.isWritable path then some (t.write path (.file text.toUTF8.toList)) else none

end CommandCoverage.FileTree
