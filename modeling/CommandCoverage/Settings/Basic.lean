import CommandCoverage.Invocation.Search
import CommandCoverage.Settings.Field

namespace CommandCoverage

inductive NotList where
  | integer
  | truth
  | number
  deriving DecidableEq, Repr

def NotList.message (n : NotList) : String :=
  let type := match n with
    | integer => "int"
    | truth => "bool"
    | number => "float"
  "'" ++ type ++ "' object is not iterable"

namespace Patterns

def itemText : Value → String
  | .null => "None"
  | .bool true => "True"
  | .bool false => "False"
  | .int n => toString n
  | .float x => floatText x
  | .text s => s
  | .list _ => "[]"

def clean (items : List String) : List String :=
  (items.map Text.stripped).filter (!·.isEmpty)

/-- The items of a text with commas, or of a list. -/
def split : Value → Except NotList (List String)
  | .null => .ok []
  | .text s => .ok (clean ((s.toList.splitOn ',').map String.ofList))
  | .list vs => .ok (clean (vs.map itemText))
  | .int _ => .error .integer
  | .bool _ => .error .truth
  | .float _ => .error .number

end Patterns

structure Settings where
  cliPath : String := "src/cli.mjs"
  testDir : String := "test"
  includePatterns : List String := [".test.mjs", ".test.js", ".spec.mjs", ".spec.js"]
  excludePatterns : List String := ["node_modules", ".git", "coverage"]
  maxFileSize : Nat := 10 * 1024 * 1024
  cacheEnabled : Bool := true
  cacheTtl : Float := 3600
  cacheMaxSize : Nat := 100
  runnerNames : List String :=
    ["runLocalCitty", "runCitty", "runLocalCittySafe", "runCittySafe"]
  policy : FaultPolicy := .skip
  workers : Nat := 1
  coverageTarget : Float := 90
  deriving Inhabited

def FaultPolicy.word : FaultPolicy → String
  | skip => "continue"
  | stop => "fail_fast"

def FaultPolicy.ofValue : Value → Except FieldFault FaultPolicy
  | .text "continue" => .ok .skip
  | .text "fail_fast" => .ok .stop
  | _ => .error .unknownChoice

inductive SettingsFault where
  | invalid (fields : List (String × FieldFault))
  | notList (n : NotList)
  deriving Repr

namespace Settings

def fieldNames : List String :=
  ["cli_path", "test_dir", "include_patterns", "exclude_patterns", "max_file_size",
    "cache_enabled", "cache_ttl", "cache_max_size", "runner_names", "test_parse_policy", "workers",
    "coverage_target"]

def variable_ (field : String) : String := "CLICOV_" ++ field.toUpper

/-- The values of the fields: those that are given and not null win over the environment, in which
an empty text counts as nothing. -/
def valueOf (env : List (String × String)) (given : List (String × Value)) (field : String) :
    Option Value :=
  match given.lookup field with
  | some .null | none => ((env.lookup (variable_ field)).filter (!·.isEmpty)).map .text
  | some v => some v

def nonEmpty (items : List String) : Except FieldFault (List String) :=
  if items.isEmpty then .error .emptyList else .ok items

def faultOf {α : Type} (name : String) : Except FieldFault α → List (String × FieldFault)
  | .ok _ => []
  | .error f => [(name, f)]

def ofValues (value : String → Option Value) : Except SettingsFault Settings := do
  let d : Settings := {}
  let field {α : Type} (name : String) (read : Value → Except FieldFault α) (default : α) :
      Except FieldFault α :=
    match value name with
    | none => .ok default
    | some v => read v
  let items (name : String) (default : List String) : Except SettingsFault (List String) :=
    match value name with
    | none => .ok default
    | some v => (Patterns.split v).mapError .notList
  let includes := nonEmpty (← items "include_patterns" d.includePatterns)
  let excludes ← items "exclude_patterns" d.excludePatterns
  let runners := nonEmpty (← items "runner_names" d.runnerNames)
  let cliPath := field "cli_path" Field.text d.cliPath
  let testDir := field "test_dir" Field.text d.testDir
  let maxFileSize := field "max_file_size" Field.positive d.maxFileSize
  let cacheEnabled := field "cache_enabled" Field.truth d.cacheEnabled
  let cacheTtl := field "cache_ttl" Field.positiveNumber d.cacheTtl
  let cacheMaxSize := field "cache_max_size" (Field.atLeast 1) d.cacheMaxSize
  let policy := field "test_parse_policy" FaultPolicy.ofValue d.policy
  let workers := field "workers" (Field.atLeast 1) d.workers
  let coverageTarget := field "coverage_target" Field.percentage d.coverageTarget
  let faults := faultOf "cli_path" cliPath ++ faultOf "test_dir" testDir ++
    faultOf "include_patterns" includes ++ faultOf "max_file_size" maxFileSize ++
    faultOf "cache_enabled" cacheEnabled ++ faultOf "cache_ttl" cacheTtl ++
    faultOf "cache_max_size" cacheMaxSize ++ faultOf "runner_names" runners ++
    faultOf "test_parse_policy" policy ++ faultOf "workers" workers ++
    faultOf "coverage_target" coverageTarget
  if !faults.isEmpty then throw (.invalid faults)
  let get {α : Type} (default : α) (r : Except FieldFault α) : α := r.toOption.getD default
  return {
    cliPath := get d.cliPath cliPath
    testDir := get d.testDir testDir
    includePatterns := get d.includePatterns includes
    excludePatterns := excludes
    maxFileSize := get d.maxFileSize maxFileSize
    cacheEnabled := get d.cacheEnabled cacheEnabled
    cacheTtl := get d.cacheTtl cacheTtl
    cacheMaxSize := get d.cacheMaxSize cacheMaxSize
    runnerNames := get d.runnerNames runners
    policy := get d.policy policy
    workers := get d.workers workers
    coverageTarget := get d.coverageTarget coverageTarget }

/-- The settings from given values and the environment. -/
def read (env : List (String × String)) (given : List (String × Value)) :
    Except SettingsFault Settings :=
  ofValues (valueOf env given)

end Settings

end CommandCoverage
