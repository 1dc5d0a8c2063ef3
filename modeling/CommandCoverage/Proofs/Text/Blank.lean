import CommandCoverage.Text.Blank
import Mathlib.Data.List.DropRight

namespace CommandCoverage.Text

def Bare (cs : List Char) : Prop :=
  (∀ c ∈ cs.head?, isBlank c = false) ∧ ∀ c ∈ cs.getLast?, isBlank c = false

def Blank (cs : List Char) : Prop := ∀ c ∈ cs, isBlank c = true

instance (cs : List Char) : Decidable (Blank cs) :=
  decidable_of_iff (cs.all isBlank = true) List.all_eq_true

variable {cs u v : List Char} {c : Char}

theorem trim_eq_rdropWhile (cs : List Char) : trim cs = (cs.dropWhile isBlank).rdropWhile isBlank :=
  rfl

theorem mem_of_mem_trim (h : c ∈ trim cs) : c ∈ cs :=
  (List.dropWhile_sublist _).mem ((List.rdropWhile_prefix isBlank _).mem h)

theorem bare_trim (cs : List Char) : Bare (trim cs) := by
  constructor
  · intro c hc
    obtain ⟨rest, hrest⟩ := List.rdropWhile_prefix isBlank (cs.dropWhile isBlank)
    have hhead := List.head?_dropWhile_not isBlank cs
    rw [← hrest, List.head?_append, ← trim_eq_rdropWhile, Option.mem_def.1 hc] at hhead
    exact hhead
  · intro c hc
    have hne : trim cs ≠ [] := by
      intro hnil
      rw [hnil] at hc
      cases hc
    rw [List.getLast?_eq_some_getLast hne, Option.mem_some_iff] at hc
    rw [← hc]
    exact Bool.eq_false_iff.2 (List.rdropWhile_last_not isBlank _ hne)

theorem trim_of_blank (h : Blank cs) : trim cs = [] := by
  rw [trim_eq_rdropWhile, List.dropWhile_eq_nil_iff.2 h]
  rfl

theorem trim_padded (hu : Blank u) (hv : Blank v) (h : Bare cs) : trim (u ++ cs ++ v) = cs := by
  rw [trim_eq_rdropWhile, List.append_assoc, List.dropWhile_append_of_pos hu]
  cases cs with
  | nil => exact trim_of_blank hv
  | cons c cs =>
    have hfront : ¬isBlank c = true := by simpa using h.1 c rfl
    have hback : ∀ d ∈ v.reverse, isBlank d = true := fun d hd ↦ hv d (List.mem_reverse.1 hd)
    rw [List.cons_append, List.dropWhile_cons_of_neg hfront, ← List.cons_append, List.rdropWhile,
      List.reverse_append, List.dropWhile_append_of_pos hback]
    refine List.rdropWhile_eq_self_iff.2 fun hne ↦ ?_
    simpa using h.2 _ (List.getLast_mem_getLast? hne)

end CommandCoverage.Text
