import CommandCoverage.Table

namespace CommandCoverage

inductive Document where
  | null
  | bool (b : Bool)
  | nat (n : Nat)
  | number (x : Float)
  | text (s : String)
  | list (items : List Document)
  | fields (entries : List (String × Document))
  deriving Inhabited, Repr

namespace Document

def ofOption {α : Type} (f : α → Document) : Option α → Document
  | none => null
  | some a => f a

def ofTexts (ss : List String) : Document := list (ss.map text)

def ofTable {α : Type} (f : α → Document) (t : Table α) : Document :=
  fields (t.entries.map fun (k, a) ↦ (k, f a))

def newline (indent : Nat) : String := "\n".pushn ' ' indent

end Document

end CommandCoverage
