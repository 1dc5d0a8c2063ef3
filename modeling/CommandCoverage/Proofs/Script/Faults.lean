import CommandCoverage.Proofs.Files.Names
import CommandCoverage.Proofs.Script.Preorder
import CommandCoverage.Script.Fault

namespace CommandCoverage

namespace Text

/-- The lines of a text: the text once line feeds are put between them, and no line feeds in
them. -/
structure IsLinesOf (lines : List String) (s : String) : Prop where
  ne_nil : lines ≠ []
  joined : unlines lines = s
  plain : ∀ l ∈ lines, '\n' ∉ l.toList

theorem isLinesOf_iff {ls : List String} {s : String} : IsLinesOf ls s ↔ ls = lines s := by
  constructor
  · intro h
    have hplain : ∀ cs ∈ ls.map String.toList, '\n' ∉ cs := by simpa using h.plain
    rw [← h.joined, lines, unlines, String.toList_intercalate, show "\n".toList = ['\n'] from rfl,
      List.splitOn_intercalate '\n' hplain (by simpa using h.ne_nil)]
    simp
  · intro h
    subst h
    refine ⟨?_, ?_, ?_⟩
    · simp [lines, List.splitOn_ne_nil]
    · apply String.toList_inj.1
      rw [unlines, String.toList_intercalate, lines, List.map_map]
      simp [Function.comp_def, List.intercalate_splitOn]
    · intro l hl
      obtain ⟨cs, hcs, rfl⟩ := List.mem_map.1 hl
      simpa using Path.not_mem_of_mem_splitOn hcs

end Text

namespace Script

open Branching

namespace FaultyNode

variable {root : FaultyNode}

/-- The nodes that have an error, by what they tell, are those with a fault in them. -/
def FlagsFaults (root : FaultyNode) : Prop :=
  ∀ n, Contains root n → (n.hasError = true ↔ ∃ a, Contains n a ∧ a.isFault = true)

theorem flagsFaults_iff : root.FlagsFaults ↔
    ∀ n ∈ walk root, (n.hasError = true ↔ ∃ a ∈ walk n, a.isFault = true) := by
  simp only [FlagsFaults, mem_walk_iff_contains]

instance (root : FaultyNode) : Decidable root.FlagsFaults := decidable_of_iff _ flagsFaults_iff.symm

theorem FlagsFaults.firstFault_eq (h : root.FlagsFaults) :
    root.firstFault = (walk root).find? isFault := by
  apply searchFrom_eq_find?
  intro n hn b hb a ha hfault
  rw [List.mem_singleton] at hn
  subst hn
  exact (flagsFaults_iff.1 h b hb).2 ⟨a, ha, hfault⟩

theorem FlagsFaults.firstFault_eq_none_iff (h : root.FlagsFaults) :
    root.firstFault = none ↔ ∀ a, Contains root a → a.isFault = false := by
  rw [h.firstFault_eq, List.find?_eq_none]
  simp only [mem_walk_iff_contains, Bool.not_eq_true]

/-- A walk yields every node once and in pre-order. Where the nodes tell truly whether there is a
fault in them, the first fault found is the first one of the walk, and the failure names its start,
counted from one, and shows its line, which is empty below the last line. -/
theorem firstFault_located {α : Type} [SizeOf α] [Branching α] (tree : α) (root : FaultyNode)
    (source path : String) :
    (walk tree = preorder tree ∧ ∃ visits, Visits tree visits ∧ visits.map Prod.snd = walk tree) ∧
      (root.FlagsFaults →
        root.firstFault = (walk root).find? isFault ∧
        (root.firstFault = none ↔ ∀ a, Contains root a → a.isFault = false) ∧
        ∀ n, root.firstFault = some n → ∃ lines, Text.IsLinesOf lines source ∧
          root.failure source path = .unparseable path (n.row + 1) (n.column + 1)
            (lines.getD n.row "") n.detail) := by
  refine ⟨⟨walk_eq_preorder tree, exists_visits tree⟩, ?_⟩
  intro h
  refine ⟨h.firstFault_eq, h.firstFault_eq_none_iff, ?_⟩
  intro n hn
  refine ⟨Text.lines source, Text.isLinesOf_iff.2 rfl, ?_⟩
  rw [failure, hn]

/-- A declaration without faults before one in which a bracket is missing, with faults in a fault
after it. -/
def nested : FaultyNode :=
  { type := "program", hasError := true, children := [first, second] }
where
  first : FaultyNode := { children := [{ type := "identifier", column := 6 }] }
  second : FaultyNode :=
    { hasError := true, row := 1
      children := [{ type := "identifier", row := 1, column := 6 }, bracket, outer] }
  bracket : FaultyNode :=
    { type := ")", isMissing := true, hasError := true, row := 1, column := 11 }
  outer : FaultyNode :=
    { isError := true, hasError := true, row := 1, column := 11, children := [inner] }
  inner : FaultyNode := { isError := true, hasError := true, row := 2, text := "]" }

theorem firstFault_located_nested :
    nested.FlagsFaults ∧ nested.firstFault = some nested.bracket ∧
      nested.failure "const a = 1\nconst b = (\n]" "a.mjs" =
        .unparseable "a.mjs" 2 12 "const b = (" "missing ')'" := by
  have hflags : nested.FlagsFaults := by decide +kernel
  have hfirst : nested.firstFault = some nested.bracket := by cbv
  obtain ⟨-, hfound⟩ :=
    firstFault_located nested nested "const a = 1\nconst b = (\n]" "a.mjs"
  obtain ⟨-, -, hlocated⟩ := hfound hflags
  obtain ⟨lines, hlines, hfailure⟩ := hlocated _ hfirst
  refine ⟨hflags, hfirst, ?_⟩
  rw [hfailure, Text.isLinesOf_iff.1 hlines]
  decide +kernel

end FaultyNode

end Script

end CommandCoverage
