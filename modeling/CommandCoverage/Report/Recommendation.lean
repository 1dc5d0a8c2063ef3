import CommandCoverage.Coverage.Basic
import CommandCoverage.Failure
import CommandCoverage.Report.Choice

namespace CommandCoverage

inductive Gap where
  | item (kind : ItemKind)
  | coverage
  deriving DecidableEq, Repr

def Gap.label : Gap → String
  | item k => k.label
  | coverage => "coverage"

structure Recommendation where
  gap : Gap
  priority : Priority
  target : String
  message : String
  example_ : Option String := none
  deriving DecidableEq, Repr

def ItemKind.priority : ItemKind → Priority
  | command | subcommand => .high
  | flag | option => .medium

def integerText (n : Int) : Except Failure String :=
  if Nat.pow 10 Script.longestInteger ≤ n.natAbs then
    .error (.unexpected "ValueError" ("Exceeds the limit (" ++ Nat.repr Script.longestInteger ++
      " digits) for integer string conversion; use sys.set_int_max_str_digits() to increase " ++
      "the limit"))
  else .ok (toString n)

def Arg.sample (a : Arg) : Except Failure String :=
  match a.default with
  | .text s => .ok s
  | .int n => integerText n
  | .float x => .ok (floatText x)
  | _ => .ok "value"

namespace Untested

def tokens (u : Untested) : Except Failure (List String) :=
  match u.arg with
  | none => .ok (u.path ++ ["--help"])
  | some a =>
    if a.isFlag then .ok (u.path ++ ["--" ++ a.name])
    else a.sample.map fun value ↦ u.path ++ ["--" ++ a.name, value]

def title (u : Untested) : String :=
  u.target ++ match u.arg with
    | none => " works"
    | some a => if a.isFlag then " flag" else " option"

def testOf (runner : String) (u : Untested) (tokens : List String) : String :=
  "test('" ++ u.title ++ "', async () => \x7b\n  const result = await " ++ runner ++ "([" ++
    ", ".intercalate (tokens.map fun t ↦ "'" ++ t ++ "'") ++
    "])\n  result.expectSuccess()\n\x7d)"

def snippet (runner : String) (u : Untested) : Except Failure String :=
  u.tokens.map (u.testOf runner)

def message (u : Untested) : String :=
  match u.arg with
  | some a => "No test exercises --" ++ a.name ++ " of '" ++ u.fullName ++ "'"
  | none => "The " ++ u.kind.label ++ " '" ++ u.target ++ "' has no test coverage"

def recommendation (runner : String) (u : Untested) : Except Failure Recommendation :=
  (u.snippet runner).map fun text ↦
    { gap := .item u.kind
      priority := u.kind.priority
      target := u.target
      message := u.message
      example_ := some text }

end Untested

/-- What is asked of the tests, and how they run the command line. -/
structure Goals where
  target : Float := 90
  runner : String := "runLocalCitty"

namespace Recommendation

def ofTotal (target : Float) (r : Record) : List Recommendation :=
  if r.percentage < target then
    [{ gap := .coverage, priority := .low, target := "overall"
       message := "Overall coverage is " ++ fixedPlaces 1 r.percentage ++ "%, below the " ++
        targetText target ++ "% target; start with the high-priority items" }]
  else []

def ofPriority (p : Priority) (rs : List Recommendation) : List Recommendation :=
  rs.filter (·.priority == p)

def noLater (r s : Recommendation) : Bool := r.priority.rank ≤ s.priority.rank

/-- What is recommended, in the order in which it is found. -/
def found (g : Goals) (c : Coverage) : Except Failure (List Recommendation) := do
  let items ← (Untested.ofTree c.tree).mapM (·.recommendation g.runner)
  return items ++ ofTotal g.target c.records.overall

def ofCoverage (g : Goals) (c : Coverage) : Except Failure (List Recommendation) :=
  (found g c).map (·.mergeSort noLater)

def chosen (p : Option Priority) (rs : List Recommendation) : List Recommendation :=
  match p with
  | none => rs
  | some p => ofPriority p rs

end Recommendation

end CommandCoverage
