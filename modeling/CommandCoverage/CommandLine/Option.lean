namespace CommandCoverage.CommandLine

inductive Option_ where
  | cliPath | testDir | includePatterns | excludePatterns | format | output | verbose | noCache
  | failFast | workers | priority | help | version
  deriving DecidableEq, Repr

namespace Option_

def word : Option_ → String
  | cliPath => "--cli-path"
  | testDir => "--test-dir"
  | includePatterns => "--include-patterns"
  | excludePatterns => "--exclude-patterns"
  | format => "--format"
  | output => "--output"
  | verbose => "--verbose"
  | noCache => "--no-cache"
  | failFast => "--fail-fast"
  | workers => "--workers"
  | priority => "--priority"
  | help => "--help"
  | version => "--version"

def letter : Option_ → Option Char
  | format => some 'f'
  | output => some 'o'
  | _ => none

def takesValue : Option_ → Bool
  | verbose | noCache | failFast | help | version => false
  | _ => true

end Option_

inductive UsageFault where
  | unknownOption (word : String)
  | missingValue (option : Option_)
  | needlessValue (option : Option_)
  | unknownCommand (word : String)
  | missingCommand
  | extraArgument (word : String)
  | unknownForm (word : String)
  | badWorkers (word : String)
  deriving DecidableEq, Repr

def UsageFault.message : UsageFault → String
  | unknownOption w => "No such option: " ++ w
  | missingValue o => "Option '" ++ o.word ++ "' requires an argument."
  | needlessValue o => "Option '" ++ o.word ++ "' does not take a value."
  | unknownCommand w => "No such command '" ++ w ++ "'."
  | missingCommand => "Missing command."
  | extraArgument w => "Got unexpected extra argument (" ++ w ++ ")"
  | unknownForm w => "Invalid value for '--format' / '-f': '" ++ w ++ "'"
  | badWorkers w => "Invalid value for '--workers': '" ++ w ++ "'"

/-- An option found in a word, with the value written in the same word. -/
structure Found where
  option : Option_
  attached : Option String := none

def splitValue (word : String) : String × Option String :=
  let name := word.toList.takeWhile (· != '=')
  if name.length == word.length then (word, none)
  else (String.ofList name, some (String.ofList (word.toList.drop (name.length + 1))))

def isDash (c : Char) : Bool := c == '-'

def isOption (word : String) : Bool := word.toList.head?.any isDash && 1 < word.length

/-- The option that a word means. After a single dash a letter may mean it, with the value right
behind. -/
def findOption (known : List Option_) (word : String) : Except UsageFault Found :=
  let (name, attached) := splitValue word
  match known.find? (·.word == name) with
  | some o => .ok ⟨o, attached⟩
  | none =>
    match word.toList with
    | _ :: c :: r =>
      match known.find? (·.letter == some c) with
      | some o => .ok ⟨o, if r.isEmpty then none else some (String.ofList r)⟩
      | none => .error (.unknownOption word)
    | _ => .error (.unknownOption word)

/-- The options of a command line in the order given, and its other words. -/
structure Words where
  options : List (Option_ × String) := []
  others : List String := []
  deriving DecidableEq, Repr

def Words.addOption (o : Option_) (value : String) (w : Words) : Words :=
  { w with options := (o, value) :: w.options }

def Words.addOther (word : String) (w : Words) : Words := { w with others := word :: w.others }

/-- Reads words. Two dashes end the options; where the other words must come last, the first of
them does so too. -/
def readWords (known : List Option_) (othersLast : Bool) : List String → Except UsageFault Words
  | [] => .ok {}
  | word :: rest =>
    if word == "--" then .ok { others := rest }
    else if !isOption word then
      if othersLast then .ok { others := word :: rest }
      else (readWords known othersLast rest).map (·.addOther word)
    else
      match findOption known word with
      | .error f => .error f
      | .ok ⟨o, attached⟩ =>
        match o.takesValue, attached with
        | true, some v => (readWords known othersLast rest).map (·.addOption o v)
        | true, none =>
          match rest with
          | v :: rest => (readWords known othersLast rest).map (·.addOption o v)
          | [] => .error (.missingValue o)
        | false, some _ => .error (.needlessValue o)
        | false, none => (readWords known othersLast rest).map (·.addOption o "")

namespace Words

def has (w : Words) (o : Option_) : Bool := w.options.any (·.1 == o)

def value? (w : Words) (o : Option_) : Option String := w.options.reverse.lookup o

def firstOf (w : Words) (os : List Option_) : Option Option_ :=
  (w.options.find? fun (o, _) ↦ os.contains o).map (·.1)

end Words

end CommandCoverage.CommandLine
