namespace CommandCoverage.Script

class Branching (α : Type) [SizeOf α] where
  children : α → List α
  sizeOf_children_lt (n : α) : sizeOf (children n) < sizeOf n

namespace Branching

variable {α : Type}

def push (ns stack : List α) : List α := ns.foldl (fun s n ↦ n :: s) stack

theorem push_reverse (ns stack : List α) : push ns.reverse stack = ns ++ stack := by
  simp [push]

theorem sizeOf_append [SizeOf α] (as bs : List α) :
    sizeOf (as ++ bs) + 1 = sizeOf as + sizeOf bs := by
  induction as with
  | nil =>
    simp only [List.nil_append, List.nil.sizeOf_spec]
    omega
  | cons a as ih =>
    simp only [List.cons_append, List.cons.sizeOf_spec]
    omega

variable [SizeOf α] [Branching α]

def pushChildren (n : α) (stack : List α) : List α := push (children n).reverse stack

theorem pushChildren_eq (n : α) (stack : List α) : pushChildren n stack = children n ++ stack :=
  push_reverse _ _

theorem sizeOf_pushChildren_lt (n : α) (stack : List α) :
    sizeOf (pushChildren n stack) < sizeOf (n :: stack) := by
  have hchildren := sizeOf_children_lt n
  have happend := sizeOf_append (children n) stack
  rw [pushChildren_eq, List.cons.sizeOf_spec]
  omega

/-- What is yielded until the stack is empty: the node on top, then what its children make of the
stack. -/
def walkFrom : List α → List α
  | [] => []
  | n :: stack => n :: walkFrom (pushChildren n stack)
termination_by stack => sizeOf stack
decreasing_by exact sizeOf_pushChildren_lt n stack

def walk (n : α) : List α := walkFrom [n]

/-- The first node that is looked for. The children of a node that is not entered are passed over
as a whole. -/
def searchFrom (found enters : α → Bool) : List α → Option α
  | [] => none
  | n :: stack =>
    if found n then some n
    else if enters n then searchFrom found enters (pushChildren n stack)
    else searchFrom found enters stack
termination_by stack => sizeOf stack
decreasing_by
  · exact sizeOf_pushChildren_lt n stack
  · rw [List.cons.sizeOf_spec]
    omega

end Branching

end CommandCoverage.Script
