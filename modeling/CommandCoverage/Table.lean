namespace CommandCoverage

structure Table (α : Type) where
  entries : List (String × α) := []
  deriving Repr, Inhabited

namespace Table

variable {α : Type}

def get? (t : Table α) (k : String) : Option α := t.entries.lookup k

def contains (t : Table α) (k : String) : Bool := (t.get? k).isSome

def keys (t : Table α) : List String := t.entries.map (·.1)

def values (t : Table α) : List α := t.entries.map (·.2)

def setIn (k : String) (a : α) : List (String × α) → List (String × α)
  | [] => [(k, a)]
  | (j, b) :: r => if j == k then (k, a) :: r else (j, b) :: setIn k a r

def set (t : Table α) (k : String) (a : α) : Table α := ⟨setIn k a t.entries⟩

def erase (t : Table α) (k : String) : Table α := ⟨t.entries.filter (·.1 != k)⟩

end Table

end CommandCoverage
