import CommandCoverage.Text.Quoted

namespace CommandCoverage

inductive ReportForm where
  | text | json | markdown | html | yaml
  deriving DecidableEq, Repr, Inhabited

inductive Priority where
  | high | medium | low
  deriving DecidableEq, Repr, Inhabited

inductive ChoiceFault where
  | form (word : String)
  | priority (word : String)
  deriving DecidableEq, Repr

def ChoiceFault.message : ChoiceFault → String
  | form w => Text.quoted w ++ " is not a valid ReportFormat"
  | priority w => Text.quoted w ++ " is not a valid Priority"

namespace ReportForm

def all : List ReportForm := [text, json, markdown, html, yaml]

def word : ReportForm → String
  | text => "text"
  | json => "json"
  | markdown => "markdown"
  | html => "html"
  | yaml => "yaml"

def ofWord (w : String) : Except ChoiceFault ReportForm :=
  match all.find? (·.word == w) with
  | some f => .ok f
  | none => .error (.form w)

end ReportForm

namespace Priority

def all : List Priority := [high, medium, low]

def word : Priority → String
  | high => "high"
  | medium => "medium"
  | low => "low"

def title : Priority → String
  | high => "High"
  | medium => "Medium"
  | low => "Low"

def rank : Priority → Nat
  | high => 0
  | medium => 1
  | low => 2

def ofWord (w : String) : Except ChoiceFault Priority :=
  match all.find? (·.word == w) with
  | some p => .ok p
  | none => .error (.priority w)

def choice (w : String) : Except ChoiceFault (Option Priority) :=
  if w == "all" then .ok none else (ofWord w).map some

end Priority

end CommandCoverage
