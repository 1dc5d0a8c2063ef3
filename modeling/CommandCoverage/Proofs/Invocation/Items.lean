import CommandCoverage.Proofs.Invocation.Calls
import CommandCoverage.Proofs.Invocation.Searching

namespace CommandCoverage

open Script Node

inductive Item where
  | invocation (i : Invocation)
  | dynamic (w : Warning)
  | fault (path : String)

namespace Item

def invocation? : Item → Option Invocation
  | .invocation i => some i
  | _ => none

def warning? : Item → Option Warning
  | .invocation _ => none
  | .dynamic w => some w
  | .fault path => some (faultWarning path)

def skipped? : Item → Option String
  | .fault path => some path
  | _ => none

def dynamicWarning (path : String) (call array : Node) : Warning :=
  ⟨"dynamic_args", "runner arguments are not all string literals: " ++
    String.ofList (array.text.toList.take 60), some path, some call.line⟩

/-- The item of a call with an array: an invocation if all elements are string literals, else a
warning. -/
inductive Reports (root : Command) (path : String) (call array : Node) : Item → Prop
  | invocation {tokens : List String} (h : array.Spells tokens) :
      Reports root path call array (.invocation (.ofTokens root path call.line tokens))
  | dynamic {element : Node} (hmem : element ∈ array.parts) (h : stringValue element = none) :
      Reports root path call array (.dynamic (dynamicWarning path call array))

inductive Gathers (root : Command) (runners : List String) (path : String) :
    List Node → List Item → Prop
  | nil : Gathers root runners path [] []
  | other {n : Node} {ns : List Node} {items : List Item}
      (h : ∀ array, ¬n.CallsRunner runners array) (hrest : Gathers root runners path ns items) :
      Gathers root runners path (n :: ns) items
  | call {n array : Node} {ns : List Node} {item : Item} {items : List Item}
      (h : n.CallsRunner runners array) (hitem : Reports root path n array item)
      (hrest : Gathers root runners path ns items) :
      Gathers root runners path (n :: ns) (item :: items)

end Item

inductive Workspace.Gathers (w : Workspace) (s : Search) (root : Command) :
    List String → List Item → Prop
  | nil : Gathers w s root [] []
  | parsed {path : String} {files : List String} {source : SourceText} {tree : Node}
      {items rest : List Item} (hr : w.files.read w.maxFileSize path = .ok source)
      (hp : parseFile path source.content = some tree)
      (hitems : Item.Gathers root s.runners path tree.walk items)
      (hrest : Gathers w s root files rest) : Gathers w s root (path :: files) (items ++ rest)
  | unparseable {path : String} {files : List String} {source : SourceText} {rest : List Item}
      (hr : w.files.read w.maxFileSize path = .ok source)
      (hp : parseFile path source.content = none) (hrest : Gathers w s root files rest) :
      Gathers w s root (path :: files) (.fault path :: rest)

structure Finding.Lists (f : Finding) (files : List String) (items : List Item) : Prop where
  files : f.files = files
  invocations : f.invocations = items.filterMap Item.invocation?
  warnings : f.warnings = items.filterMap Item.warning?
  skipped : f.skipped = items.filterMap Item.skipped?

variable {w : Workspace} {s : Search} {root : Command} {runners : List String} {path : String}
  {call array n : Node} {ns : List Node} {item : Item} {items : List Item} {files : List String}
  {f : FileFinding} {i : Invocation} {tokens : List String}

section file

def FileFinding.add (f : FileFinding) (items : List Item) : FileFinding :=
  { f with
    invocations := f.invocations ++ items.filterMap Item.invocation?
    warnings := f.warnings ++ items.filterMap Item.warning? }

theorem FileFinding.add_nil (f : FileFinding) : f.add [] = f := by
  simp [add]

theorem FileFinding.add_append (f : FileFinding) (items items' : List Item) :
    f.add (items ++ items') = (f.add items).add items' := by
  simp [add]

theorem exists_reports (root : Command) (path : String) (f : FileFinding)
    (h : call.HandsOver array) : ∃ item, Item.Reports root path call array item ∧
      FileFinding.addCall root path f call = f.add [item] := by
  have harray := tokenArray_eq_some_iff.2 h
  unfold FileFinding.addCall
  rw [harray]
  dsimp only
  cases ht : tokensOf array with
  | some tokens =>
    exact ⟨_, .invocation ((tokensOf_eq_some_iff h.kind_eq).1 ht), by
      simp [FileFinding.add, Item.invocation?, Item.warning?]⟩
  | none =>
    have hnone : ¬∃ tokens, array.Spells tokens := by
      rintro ⟨tokens, hspells⟩
      rw [(tokensOf_eq_some_iff h.kind_eq).2 hspells] at ht
      cases ht
    rw [exists_spells_iff] at hnone
    push Not at hnone
    obtain ⟨element, hmem, helement⟩ := hnone
    exact ⟨_, .dynamic hmem helement, by
      simp [FileFinding.add, Item.invocation?, Item.warning?, Item.dynamicWarning]⟩

theorem addCall_of_not_handsOver (h : ∀ array, ¬call.HandsOver array) :
    FileFinding.addCall root path f call = f := by
  have hnone : tokenArray call = none := by
    rw [Option.eq_none_iff_forall_ne_some]
    intro array harray
    exact h array (tokenArray_eq_some_iff.1 harray)
  rw [FileFinding.addCall, hnone]

theorem exists_gathers (root : Command) (runners : List String) (path : String) (ns : List Node)
    (f : FileFinding) : ∃ items, Item.Gathers root runners path ns items ∧
      (ns.filter fun n ↦ n.kind == .call && n.calleeName.any runners.contains).foldl
        (FileFinding.addCall root path) f = f.add items := by
  induction ns generalizing f with
  | nil => exact ⟨[], .nil, f.add_nil.symm⟩
  | cons n ns ih =>
    have hrunner : (n.kind == .call && n.calleeName.any runners.contains) = true ↔
        n.kind = .call ∧ ∃ name, n.calleeName = some name ∧ name ∈ runners := by
      simp [Option.any_eq_true]
    by_cases hcall : n.kind = .call ∧ ∃ name, n.calleeName = some name ∧ name ∈ runners
    · rw [List.filter_cons, if_pos (hrunner.2 hcall), List.foldl_cons]
      by_cases harray : ∃ array, n.HandsOver array
      · obtain ⟨array, harray⟩ := harray
        obtain ⟨item, hitem, hadd⟩ := exists_reports root path f harray
        obtain ⟨items, hitems, hfold⟩ := ih (f.add [item])
        refine ⟨item :: items, .call ⟨hcall.1, hcall.2, harray⟩ hitem hitems, ?_⟩
        rw [hadd, hfold, ← f.add_append, List.singleton_append]
      · obtain ⟨items, hitems, hfold⟩ := ih f
        refine ⟨items, .other (fun array h ↦ harray ⟨array, h.array⟩) hitems, ?_⟩
        rw [addCall_of_not_handsOver fun array h ↦ harray ⟨array, h⟩, hfold]
    · obtain ⟨items, hitems, hfold⟩ := ih f
      refine ⟨items, .other (fun array h ↦ hcall ⟨h.kind, h.callee⟩) hitems, ?_⟩
      rw [List.filter_cons, if_neg fun h ↦ hcall (hrunner.1 h), hfold]

namespace Item.Gathers

theorem mem_iff (h : Item.Gathers root runners path ns items) :
    i ∈ items.filterMap Item.invocation? ↔ ∃ n ∈ ns, ∃ array tokens, n.CallsRunner runners array ∧
      array.Spells tokens ∧ i = .ofTokens root path n.line tokens := by
  induction h with
  | nil => simp
  | other hno _ ih =>
    rw [ih, List.exists_mem_cons_iff, or_iff_right]
    rintro ⟨array, tokens, hcall, -⟩
    exact hno array hcall
  | @call n array ns item items hcall hitem _ ih =>
    have hown : i ∈ item.invocation?.toList ↔ ∃ array tokens, n.CallsRunner runners array ∧
        array.Spells tokens ∧ i = .ofTokens root path n.line tokens := by
      constructor
      · intro hi
        cases hitem with
        | invocation hspells =>
          obtain rfl : i = _ := by simpa [invocation?] using hi
          exact ⟨array, _, hcall, hspells, rfl⟩
        | dynamic => simp [invocation?] at hi
      · rintro ⟨array', tokens, hcall', hspells, rfl⟩
        obtain rfl := hcall.array.unique hcall'.array
        cases hitem with
        | invocation hspells' =>
          obtain rfl := hspells.unique hspells'
          simp [invocation?]
        | dynamic hmem hnone => exact absurd hnone (exists_spells_iff.1 ⟨tokens, hspells⟩ _ hmem)
    have happend : (item :: items).filterMap invocation? =
        item.invocation?.toList ++ items.filterMap invocation? := by
      cases h : item.invocation? <;> simp [h]
    rw [happend, List.mem_append, hown, ih, List.exists_mem_cons_iff]

theorem pairwise_line (h : Item.Gathers root runners path ns items)
    (hns : ns.Pairwise fun a b ↦ a.line ≤ b.line) :
    (items.filterMap Item.invocation?).Pairwise fun i j ↦ i.line ≤ j.line := by
  induction h with
  | nil => exact .nil
  | other _ _ ih => exact ih (List.pairwise_cons.1 hns).2
  | @call n array ns item items hcall hitem hrest ih =>
    obtain ⟨hfirst, hns⟩ := List.pairwise_cons.1 hns
    cases hitem with
    | invocation hspells =>
      refine List.pairwise_cons.2 ⟨fun j hj ↦ ?_, ih hns⟩
      obtain ⟨m, hm, array', tokens', -, -, rfl⟩ := hrest.mem_iff.1 hj
      exact hfirst m hm
    | dynamic => exact ih hns

end Item.Gathers

theorem Item.Gathers.skipped (h : Item.Gathers root runners path ns items) :
    items.filterMap Item.skipped? = [] := by
  induction h with
  | nil => rfl
  | other _ _ ih => exact ih
  | call _ hitem _ ih =>
    cases hitem with
    | invocation => exact ih
    | dynamic => exact ih

end file

section files

def Workspace.RunsAt (w : Workspace) (runners : List String) (path : String) (line : Nat)
    (tokens : List String) : Prop :=
  ∃ source tree call array, w.files.read w.maxFileSize path = .ok source ∧
    parseFile path source.content = some tree ∧ call ∈ tree.walk ∧ call.CallsRunner runners array ∧
    array.Spells tokens ∧ call.line = line

def Workspace.Passes (w : Workspace) (cached : Bool) (s : Search) (path : String) : Prop :=
  ∃ source, w.files.read w.maxFileSize path = .ok source ∧ w.keyFailure? cached path = none ∧
    (s.policy = .skip ∨ ∃ tree, parseFile path source.content = some tree)

theorem Workspace.Gathers.mem_iff (h : w.Gathers s root files items) :
    i ∈ items.filterMap Item.invocation? ↔ ∃ path ∈ files, ∃ line tokens,
      w.RunsAt s.runners path line tokens ∧ i = .ofTokens root path line tokens := by
  induction h with
  | nil => simp
  | @parsed path files source tree items rest hr hp hitems _ ih =>
    have hown : (i ∈ items.filterMap Item.invocation?) ↔ ∃ line tokens,
        w.RunsAt s.runners path line tokens ∧ i = .ofTokens root path line tokens := by
      rw [hitems.mem_iff]
      constructor
      · rintro ⟨n, hn, array, tokens, hcall, hspells, rfl⟩
        exact ⟨n.line, tokens, ⟨source, tree, n, array, hr, hp, hn, hcall, hspells, rfl⟩, rfl⟩
      · rintro ⟨line, tokens, ⟨source', tree', n, array, hr', hp', hn, hcall, hspells, rfl⟩, rfl⟩
        obtain rfl := Except.ok.inj (hr.symm.trans hr')
        obtain rfl := Option.some_inj.1 (hp.symm.trans hp')
        exact ⟨n, hn, array, tokens, hcall, hspells, rfl⟩
    rw [List.filterMap_append, List.mem_append, hown, ih, List.exists_mem_cons_iff]
  | @unparseable path files source rest hr hp _ ih =>
    rw [List.filterMap_cons_none rfl, ih, List.exists_mem_cons_iff, or_iff_right]
    rintro ⟨line, tokens, ⟨source', tree', n, array, hr', hp', -⟩, -⟩
    obtain rfl := Except.ok.inj (hr.symm.trans hr')
    rw [hp] at hp'
    cases hp'

/-- Invocations come in the order of their files, and in a file in the order of their lines. -/
theorem Workspace.Gathers.pairwise_place {rank : String → Nat} (h : w.Gathers s root files items)
    (hrank : files.Pairwise fun p q ↦ rank p < rank q)
    (horder : ∀ path ∈ files, ∀ source tree, w.files.read w.maxFileSize path = .ok source →
      parseFile path source.content = some tree → tree.InOrder) :
    (items.filterMap Item.invocation?).Pairwise fun i j ↦
      rank i.file < rank j.file ∨ rank i.file = rank j.file ∧ i.line ≤ j.line := by
  induction h with
  | nil => exact .nil
  | @parsed path files source tree items rest hr hp hitems hrest ih =>
    obtain ⟨hfirst, hrank⟩ := List.pairwise_cons.1 hrank
    obtain ⟨hown, horder⟩ := List.forall_mem_cons.1 horder
    have hfile {i : Invocation} (hi : i ∈ items.filterMap Item.invocation?) : i.file = path := by
      obtain ⟨n, -, array, tokens, -, -, rfl⟩ := hitems.mem_iff.1 hi
      rfl
    rw [List.filterMap_append, List.pairwise_append]
    refine ⟨?_, ih hrank horder, ?_⟩
    · have hlines := hitems.pairwise_line (hown source tree hr hp).pairwise_line
      refine hlines.imp_of_mem ?_
      intro i j hi hj hij
      exact .inr ⟨by rw [hfile hi, hfile hj], hij⟩
    · intro i hi j hj
      obtain ⟨q, hq, line, tokens, -, rfl⟩ := hrest.mem_iff.1 hj
      exact .inl (hfile hi ▸ hfirst q hq)
  | unparseable _ _ _ ih =>
    exact ih (List.pairwise_cons.1 hrank).2 (List.forall_mem_cons.1 horder).2

structure Collects (found : List (String × FileFinding)) (files : List String)
    (items : List Item) : Prop where
  files : found.map (·.1) = files
  invocations : found.flatMap (·.2.invocations) = items.filterMap Item.invocation?
  warnings : found.flatMap (·.2.warnings) = items.filterMap Item.warning?
  skipped : (found.filter (·.2.skipped)).map (·.1) = items.filterMap Item.skipped?

theorem exists_collects {cached : Bool} (h : ∀ path ∈ files, w.Passes cached s path) :
    ∃ found items, w.findings cached s root files = .ok found ∧ w.Gathers s root files items ∧
      Collects found files items := by
  induction files with
  | nil => exact ⟨[], [], rfl, .nil, ⟨rfl, rfl, rfl, rfl⟩⟩
  | cons path files ih =>
    obtain ⟨⟨source, hr, hk, hpass⟩, hrest⟩ := List.forall_mem_cons.1 h
    obtain ⟨found, items, hfound, hitems, hcollects⟩ := ih hrest
    have hfindings (one : FileFinding) (h : s.finding root path source.content = .ok one) :
        w.findings cached s root (path :: files) = .ok ((path, one) :: found) := by
      rw [findings_cons_of_ok ((finding_of_keyed hr hk).trans h), hfound]
      rfl
    cases hp : parseFile path source.content with
    | some tree =>
      obtain ⟨own, hown, hfold⟩ := exists_gathers root s.runners path tree.walk {}
      have hone : s.finding root path source.content = .ok (FileFinding.add {} own) := by
        rw [Search.finding, hp, ← hfold]
        rfl
      refine ⟨_, own ++ items, hfindings _ hone, .parsed hr hp hown hitems, ?_⟩
      constructor
      · rw [List.map_cons, hcollects.files]
      · rw [List.flatMap_cons, hcollects.invocations, List.filterMap_append]
        rfl
      · rw [List.flatMap_cons, hcollects.warnings, List.filterMap_append]
        rfl
      · rw [List.filter_cons_of_neg (by simp [FileFinding.add]), hcollects.skipped,
          List.filterMap_append, hown.skipped, List.nil_append]
    | none =>
      have hskip : s.policy = .skip := by
        rcases hpass with hskip | ⟨tree, htree⟩
        · exact hskip
        · rw [hp] at htree
          cases htree
      have hone : s.finding root path source.content =
          .ok { warnings := [faultWarning path], skipped := true } := by
        rw [Search.finding, hp, hskip]
        rfl
      refine ⟨_, .fault path :: items, hfindings _ hone, .unparseable hr hp hitems, ?_⟩
      constructor
      · rw [List.map_cons, hcollects.files]
      · rw [List.flatMap_cons, hcollects.invocations]
        rfl
      · rw [List.flatMap_cons, hcollects.warnings]
        rfl
      · rw [List.filter_cons_of_pos rfl, List.map_cons, hcollects.skipped]
        rfl

end files

end CommandCoverage
