import CommandCoverage.Text.Blank
import CommandCoverage.Text.Lines

namespace CommandCoverage

inductive Failure where
  | plain (message : String) (suggestions : List String)
  | unreadable (path reason : String) (suggestions : List String)
  | unparseable (path : String) (line column : Nat) (lineText detail : String)
  | shapeless (path reason : String) (details : Option String)
  | undiscoverable (directory reason : String) (files : List String)
  | unexpected (kind message : String)
  deriving DecidableEq, Repr, Inhabited

namespace Failure

def message : Failure → String
  | plain m _ => m
  | unreadable path reason _ => "Cannot read " ++ path ++ ": " ++ reason
  | unparseable path line column lineText detail =>
    "Failed to parse " ++ path ++ "\nParse error: " ++ detail ++ " at line " ++ Nat.repr line ++
      ", column " ++ Nat.repr column ++
      if lineText.toList.all Text.isBlank then ""
      else "\nProblematic line:\n  " ++ Text.strippedEnd lineText
  | shapeless path reason details =>
    "Failed to discover CLI structure: " ++ path ++ "\nReason: " ++ reason ++
      match details.filter (!·.isEmpty) with
      | none => ""
      | some d => "\nDetails: " ++ d
  | undiscoverable directory reason files =>
    "Failed to discover test files in " ++ directory ++ "\nReason: " ++ reason ++
      if files.isEmpty then "" else "\nFailed files:\n  - " ++ "\n  - ".intercalate files
  | unexpected _ m => m

def suggestions : Failure → List String
  | plain _ ss => ss
  | unreadable _ _ ss => ss
  | unparseable path .. =>
    ["Check the file for missing or extra brackets, parentheses or braces",
      "Run a linter on the file, e.g. npx eslint " ++ path,
      "Make sure the file is JavaScript/TypeScript and not a build artifact"]
  | shapeless .. =>
    ["Ensure the file defines its command with defineCommand(\x7b meta: \x7b name \x7d \x7d)",
      "Point --cli-path at the CLI entry file rather than a helper module",
      "Run with --verbose to see which definitions were considered"]
  | undiscoverable directory .. =>
    ["Check that the test directory exists and is readable",
      "Pass the right directory with --test-dir",
      "Check permissions: ls -la " ++ directory]
  | unexpected .. => []

def exitCode : Failure → Nat
  | plain .. => 1
  | unreadable .. => 4
  | unparseable .. => 2
  | shapeless .. => 3
  | undiscoverable .. => 4
  | unexpected .. => 1

def text (f : Failure) : String :=
  if f.suggestions.isEmpty then f.message
  else f.message ++ "\n\nPossible fixes:\n" ++ Text.unlines (Text.numbered f.suggestions)

end Failure

end CommandCoverage
