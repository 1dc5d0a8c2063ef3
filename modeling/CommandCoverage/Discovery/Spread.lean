import CommandCoverage.Discovery.Resolution

namespace CommandCoverage

open Script

/-- The object literal that a value of a module is, through at most `steps - 1` names and
functions. -/
def Script.Module.objectWithin (m : Module) : Nat → Option Node → Option Node
  | 0, _ => none
  | _, none => none
  | steps + 1, some n =>
    let n := n.unwrap
    match n.kind with
    | .object => some n
    | .identifier | .shorthand => m.objectWithin steps (m.bindings.get? n.text)
    | .arrow | .function | .method => m.objectWithin steps n.returned
    | _ => none

/-- Names and functions are followed this often, and so are the steps of a spread. -/
def mostSteps : Nat := 9

/-- The object literal that a value is in its module. -/
def Script.Module.object (m : Module) (value : Option Node) : Option Node :=
  m.objectWithin mostSteps value

inductive SpreadQuery where
  | value (v : Option Node) (m : Module)
  | imported (i : Import) (fromFile : String)

namespace Analysis

def firstSome {α β : Type} (f : α → Analysis (Option β)) : List α → Analysis (Option β)
  | [] => return none
  | a :: as => do
    match ← f a with
    | some b => return some b
    | none => firstSome f as

/-- The object literal behind a spread, through names and imports, within so many steps. -/
def spreadWithin (w : Workspace) : Nat → SpreadQuery → Analysis (Option Located)
  | 0, .value v m => return (m.object v).map (⟨·, m⟩)
  | 0, .imported .. => return none
  | steps + 1, .value v m => do
    match m.object v, v with
    | some obj, _ => return some ⟨obj, m⟩
    | none, none => return none
    | none, some v =>
      match m.classify (some v) with
      | .imported i fromFile => spreadWithin w steps (.imported i fromFile)
      | _ => return none
  | steps + 1, .imported i fromFile => do
    match w.files.resolveModule i.specifier fromFile with
    | none => return none
    | some path =>
      match ← load w path with
      | .error _ => return none
      | .ok target =>
        match target.exports.get? i.name with
        | none =>
          firstSome (fun star ↦ spreadWithin w steps (.imported ⟨star, i.name⟩ target.path))
            target.stars
        | some (.passed j) => spreadWithin w steps (.imported j target.path)
        | some (.bound name) =>
          match target.imports.get? name with
          | some j => spreadWithin w steps (.imported j target.path)
          | none => spreadWithin w steps (.value (target.bindings.get? name) target)
        | some (.value v) => spreadWithin w steps (.value (some v) target)

def spread (w : Workspace) (v : Node) (m : Module) : Analysis (Option Located) :=
  spreadWithin w mostSteps (.value (some v) m)

end Analysis

end CommandCoverage
