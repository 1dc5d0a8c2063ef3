import CommandCoverage.Coverage.Basic
import CommandCoverage.Proofs.Command.Nodes
import CommandCoverage.Proofs.Text.Order
import Mathlib.Data.List.Forall2
import Mathlib.Data.Option.Defs

namespace CommandCoverage

open Command

structure Arg.Marked (used : Prop) (a a' : Arg) : Prop where
  same : a' = { a with tested := a'.tested }
  tested : a'.tested = true ↔ a.tested = true ∨ used

theorem Arg.Marked.name {used : Prop} {a a' : Arg} (h : a.Marked used a') : a'.name = a.name := by
  rw [h.same]

theorem Arg.Marked.aliases {used : Prop} {a a' : Arg} (h : a.Marked used a') :
    a'.aliases = a.aliases := by
  rw [h.same]

namespace Command

def own (c : Command) : Command := { c with subcommands := [] }

/-- A command with the marks it has when it is run by some files, one after the other, and its
arguments are used. -/
structure Marked (files : List String) (used : ArgTable → String → Prop) (c c' : Command) :
    Prop where
  same : c'.own = { c.own with
    tested := c'.tested, testFiles := c'.testFiles, flags := c'.flags, options := c'.options }
  children : c'.subcommands.map (·.name) = c.subcommands.map (·.name)
  tested : c'.tested = true ↔ c.tested = true ∨ files ≠ []
  testFiles : c'.testFiles = c.testFiles ++ (files.filter (· ∉ c.testFiles)).eraseDups
  args : ∀ t, List.Forall₂ (fun a a' ↦ a.Marked (used t a.name) a') (c.table t) (c'.table t)

/-- A tree whose commands have the marks of the runs and uses at their paths. -/
def MarkedTree (files : List String → List String) (used : List String → ArgTable → String → Prop)
    (root tree : Command) : Prop :=
  ∀ path, Option.Rel (Marked (files path) (used path)) (root.resolve path) (tree.resolve path)

structure Altered (g : Command → Command) (c c' : Command) : Prop where
  own : c'.own = (g c).own
  children : c'.subcommands.map (·.name) = c.subcommands.map (·.name)

variable {c c' root tree : Command} {name : String} {path q : List String}
  {files : List String} {used : ArgTable → String → Prop}

section modifyAt

variable {f : Command → Command}

theorem resolve_modifyAt (hn : ∀ c, (f c).name = c.name)
    (hs : ∀ c, (f c).subcommands = c.subcommands) (p q : List String) (c : Command) :
    Option.Rel (Altered (if q = p then f else id)) (c.resolve q) ((c.modifyAt f p).resolve q) := by
  induction p generalizing q c with
  | nil =>
    cases q with
    | nil => exact .some ⟨rfl, by simp [modifyAt, hs]⟩
    | cons x xs =>
      simp only [resolve, modifyAt, child, hs, reduceCtorEq, if_false]
      cases (c.subcommands.find? _).bind _ with
      | none => exact .none
      | some d => exact .some ⟨rfl, rfl⟩
  | cons y ys ih =>
    cases q with
    | nil =>
      refine .some ⟨by simp [modifyAt, own], ?_⟩
      simp only [modifyAt, List.map_map, List.map_inj_left, Function.comp_apply]
      intro d _
      split <;> simp [name_modifyAt hn]
    | cons x xs =>
      simp only [resolve, child_modifyAt hn]
      cases c.child x with
      | none => exact .none
      | some d =>
        by_cases hxy : x = y
        · subst hxy
          simpa using ih xs d
        · simp only [Option.map_some, Option.bind_some, hxy, if_false, List.cons.injEq, false_and]
          cases d.resolve xs with
          | none => exact .none
          | some e => exact .some ⟨rfl, rfl⟩

end modifyAt

section lookup

theorem Marked.names (h : c.Marked files used c') (t : ArgTable) :
    (c'.table t).map (·.name) = (c.table t).map (·.name) := by
  have := h.args t
  generalize c.table t = as, c'.table t = as' at this
  induction this with
  | nil => rfl
  | cons ha _ ih => simp [ha.name, ih]

theorem Marked.fits (h : c.Marked files used c') (name : String) {a a' : Arg} {P : Prop}
    (ha : a.Marked P a') : c'.fits name a' = c.fits name a := by
  have hargs : c'.args.map (·.name) = c.args.map (·.name) := by
    simpa [Command.args, table] using congrArg₂ (· ++ ·) (h.names .flags) (h.names .options)
  have hany : c'.args.any (·.name == name) = c.args.any (·.name == name) := by
    simpa only [List.any_map, Function.comp_def] using congrArg (List.any · (· == name)) hargs
  simp only [Command.fits, hany, ha.name, ha.aliases]

theorem find?_rel {P : Arg → Prop} {p q : Arg → Bool} {as as' : List Arg}
    (h : List.Forall₂ (fun a a' ↦ a.Marked (P a) a') as as')
    (hp : ∀ a a', a.Marked (P a) a' → q a' = p a) :
    Option.Rel (fun a a' ↦ a.Marked (P a) a') (as.find? p) (as'.find? q) := by
  induction h with
  | nil => exact .none
  | @cons a a' as as' ha h ih =>
    simp only [List.find?_cons, hp a a' ha]
    cases p a
    · exact ih
    · exact .some ha

theorem Marked.means_iff (h : c.Marked files used c') {t : ArgTable} {n : String} :
    (∃ a, c'.Means name t a ∧ a.name = n) ↔ ∃ a, c.Means name t a ∧ a.name = n := by
  have hf := find?_rel (p := c.fits name) (q := c'.fits name) (h.args .flags) fun a a' ↦ h.fits name
  have ho := find?_rel (p := c.fits name) (q := c'.fits name) (h.args .options) fun a a' ↦ h.fits name
  cases t <;> simp only [means_flags_iff, means_options_iff] <;> simp only [table] at hf ho
  · generalize c.flags.find? _ = x, c'.flags.find? _ = x' at hf
    cases hf with
    | none => simp
    | some ha => simp [ha.name]
  · generalize c.flags.find? _ = x, c'.flags.find? _ = x' at hf
    generalize c.options.find? _ = y, c'.options.find? _ = y' at ho
    cases hf with
    | some => simp
    | none =>
      cases ho with
      | none => simp
      | some ha => simp [ha.name]

def MeansAt (root : Command) (name : String) (path : List String) (t : ArgTable) (n : String) :
    Prop :=
  ∃ c, root.resolve path = some c ∧ ∃ a, c.Means name t a ∧ a.name = n

theorem exists_finds_iff {owner : List String} {t : ArgTable} {n : String} :
    (∃ a, root.Finds path name owner t a ∧ a.name = n) ↔
      (root.resolve path).isSome ∧ owner <+: path ∧ root.MeansAt name owner t n ∧
        ∀ nearer, owner <+: nearer → nearer ≠ owner → nearer <+: path →
          ∀ u m, ¬root.MeansAt name nearer u m := by
  constructor
  · rintro ⟨a, ⟨hl, ha, ⟨c, hc, hm⟩, hn⟩, rfl⟩
    refine ⟨hl, ha, ⟨c, hc, a, hm, rfl⟩, ?_⟩
    rintro nearer h₁ h₂ h₃ u m ⟨d, hd, b, hb, -⟩
    exact hn nearer h₁ h₂ h₃ d hd u b hb
  · rintro ⟨hl, ha, ⟨c, hc, a, hm, rfl⟩, hn⟩
    exact ⟨a, ⟨hl, ha, ⟨c, hc, hm⟩, fun nearer h₁ h₂ h₃ d hd u b hb ↦
      hn nearer h₁ h₂ h₃ u b.name ⟨d, hd, b, hb, rfl⟩⟩, rfl⟩

variable {allFiles : List String → List String} {allUsed : List String → ArgTable → String → Prop}

theorem MarkedTree.isSome_eq (h : MarkedTree allFiles allUsed root tree) (q : List String) :
    (tree.resolve q).isSome = (root.resolve q).isSome := by
  have hq := h q
  generalize root.resolve q = x, tree.resolve q = x' at hq
  cases hq <;> rfl

theorem MarkedTree.distinctTree (h : MarkedTree allFiles allUsed root tree) (hr : root.DistinctTree) :
    tree.DistinctTree := by
  intro path c' hc'
  have hrel := h path
  rw [hc'] at hrel
  generalize hc : root.resolve path = x at hrel
  cases hrel with
  | some hm =>
    have hd := hr path _ hc
    refine ⟨by rw [hm.children]; exact hd.subcommands, ?_⟩
    have hflags := hm.names .flags
    have hoptions := hm.names .options
    simp only [table] at hflags hoptions
    rw [args, List.map_append, hflags, hoptions, ← List.map_append]
    exact hd.args

theorem MarkedTree.meansAt_iff (h : MarkedTree allFiles allUsed root tree) {t : ArgTable}
    {n : String} : tree.MeansAt name q t n ↔ root.MeansAt name q t n := by
  have hq := h q
  unfold MeansAt
  generalize root.resolve q = x, tree.resolve q = x' at hq
  cases hq with
  | none => simp
  | some hc => simp [hc.means_iff]

theorem MarkedTree.finds_iff (h : MarkedTree allFiles allUsed root tree) {owner : List String}
    {t : ArgTable} {n : String} : (∃ a, tree.Finds path name owner t a ∧ a.name = n) ↔
      ∃ a, root.Finds path name owner t a ∧ a.name = n := by
  simp only [exists_finds_iff, h.isSome_eq, h.meansAt_iff]

end lookup

section step

theorem forall₂_markNamed {P : String → Prop} {as as' : List Arg}
    (h : List.Forall₂ (fun a a' ↦ a.Marked (P a.name) a') as as') (m : String) :
    List.Forall₂ (fun a a' ↦ a.Marked (P a.name ∨ m = a.name) a') as
      (Coverage.markNamed m as') := by
  induction h with
  | nil => exact .nil
  | @cons a a' as as' ha h ih =>
    refine .cons ?_ ih
    dsimp only
    by_cases hm : a.name = m
    · rw [if_pos (by simp [ha.name, hm])]
      exact ⟨by rw [ha.same], by simp [hm]⟩
    · rw [if_neg (by simp [ha.name, hm])]
      exact ⟨ha.same, by simp [ha.tested, Ne.symm hm]⟩

theorem Marked.congr {used' : ArgTable → String → Prop} (h : c.Marked files used c')
    (hu : ∀ t n, used t n ↔ used' t n) : c.Marked files used' c' := by
  obtain rfl : used = used' := by funext t n; exact propext (hu t n)
  exact h

theorem Marked.setTable {d : Command} (h : c.Marked files used c') {t : ArgTable} {m : String}
    (ht : d.table t = Coverage.markNamed m (c'.table t)) (hu : ∀ u, u ≠ t → d.table u = c'.table u)
    (ho : d.own = { c'.own with flags := d.flags, options := d.options })
    (hs : d.subcommands = c'.subcommands) :
    c.Marked files (fun u n ↦ used u n ∨ u = t ∧ m = n) d := by
  have htested : d.tested = c'.tested := by simpa [own] using congrArg Command.tested ho
  have hfiles : d.testFiles = c'.testFiles := by simpa [own] using congrArg Command.testFiles ho
  refine ⟨?_, by rw [hs, h.children], by rw [htested, h.tested], by rw [hfiles, h.testFiles], ?_⟩
  · rw [ho, h.same, htested, hfiles]
  · intro u
    by_cases hut : u = t
    · subst hut
      rw [ht]
      exact (forall₂_markNamed (h.args u) m).imp fun a a' ha ↦ by simpa using ha
    · rw [hu u hut]
      exact (h.args u).imp fun a a' ha ↦ by simpa [hut] using ha

theorem Marked.markArg (h : c.Marked files used c') (name : String) :
    c.Marked files (fun t n ↦ used t n ∨ ∃ a, c.Means name t a ∧ a.name = n)
      (Coverage.markArg name c') := by
  simp only [← h.means_iff]
  unfold Coverage.markArg
  cases hf : c'.flags.find? (c'.fits name) with
  | some a =>
    refine Marked.congr (h.setTable (t := .flags) (m := a.name) ?_ ?_ ?_ ?_) fun t n ↦ ?_
    · rfl
    · rintro (_ | _) hu <;> simp_all [table]
    · simp [own]
    · rfl
    · cases t <;> simp [means_flags_iff, means_options_iff, hf]
  | none =>
    cases ho : c'.options.find? (c'.fits name) with
    | some a =>
      refine Marked.congr (h.setTable (t := .options) (m := a.name) ?_ ?_ ?_ ?_) fun t n ↦ ?_
      · rfl
      · rintro (_ | _) hu <;> simp_all [table]
      · simp [own]
      · rfl
      · cases t <;> simp [means_flags_iff, means_options_iff, hf, ho]
    | none =>
      refine h.congr fun t n ↦ ?_
      cases t <;> simp [means_flags_iff, means_options_iff, hf, ho]

theorem eraseDups_append_singleton (ss : List String) (s : String) :
    (ss ++ [s]).eraseDups = if s ∈ ss then ss.eraseDups else ss.eraseDups ++ [s] := by
  by_cases h : s ∈ ss <;> simp [List.eraseDups_append, List.removeAll, h, List.eraseDups_cons]

theorem Marked.runBy (h : c.Marked files used c') (file : String) :
    c.Marked (files ++ [file]) used (Coverage.runBy file c') := by
  refine ⟨?_, h.children, by simp [Coverage.runBy], ?_, h.args⟩
  · have hs := h.same
    simp only [own, Coverage.runBy] at hs ⊢
    grind
  · by_cases hc : file ∈ c.testFiles
    · simp [Coverage.runBy, h.testFiles, hc]
    · have he : (files ++ [file]).filter (· ∉ c.testFiles) =
          files.filter (· ∉ c.testFiles) ++ [file] := by simp [hc]
      rw [he, eraseDups_append_singleton]
      by_cases hf : file ∈ files <;> simp [Coverage.runBy, h.testFiles, hc, hf]

theorem Marked.of_altered {g : Command → Command} {d : Command} (h : c.Marked files used (g c'))
    (ha : Altered g c' d) (hg : (g c').subcommands = c'.subcommands) : c.Marked files used d := by
  have htested : d.tested = (g c').tested := by simpa [own] using congrArg Command.tested ha.own
  have hfiles : d.testFiles = (g c').testFiles := by
    simpa [own] using congrArg Command.testFiles ha.own
  have hflags : d.flags = (g c').flags := by simpa [own] using congrArg Command.flags ha.own
  have hoptions : d.options = (g c').options := by simpa [own] using congrArg Command.options ha.own
  refine ⟨?_, ?_, by rw [htested, h.tested], by rw [hfiles, h.testFiles], ?_⟩
  · rw [ha.own, h.same, htested, hfiles, hflags, hoptions]
  · rw [ha.children, ← hg, h.children]
  · rintro (_ | _)
    · simpa only [table, hflags] using h.args .flags
    · simpa only [table, hoptions] using h.args .options

theorem rel_comp {α β γ : Type} {R : α → β → Prop} {S : β → γ → Prop} {T : α → γ → Prop}
    {x : Option α} {y : Option β} {z : Option γ} (hr : Option.Rel R x y) (hs : Option.Rel S y z)
    (ht : ∀ a b c, x = some a → R a b → S b c → T a c) : Option.Rel T x z := by
  cases hr with
  | none => cases hs; exact .none
  | some hr => cases hs with | some hs => exact .some (ht _ _ _ rfl hr hs)

variable {allFiles : List String → List String} {allUsed : List String → ArgTable → String → Prop}

theorem MarkedTree.congr {allFiles' : List String → List String}
    {allUsed' : List String → ArgTable → String → Prop} (h : MarkedTree allFiles allUsed root tree)
    (hf : ∀ q, (root.resolve q).isSome → allFiles q = allFiles' q)
    (hu : ∀ q, (root.resolve q).isSome → ∀ t n, allUsed q t n ↔ allUsed' q t n) :
    MarkedTree allFiles' allUsed' root tree := by
  intro q
  have hq := h q
  have hfq := hf q
  have huq := hu q
  generalize root.resolve q = x, tree.resolve q = y at hq hfq huq
  cases hq with
  | none => exact .none
  | some hc => exact .some (hfq rfl ▸ hc.congr (huq rfl))

/-- A change of the marks at the end of a path is one of the marked tree. -/
theorem MarkedTree.modifyAt {f : Command → Command} {p : List String}
    {allFiles' : List String → List String} {allUsed' : List String → ArgTable → String → Prop}
    (h : MarkedTree allFiles allUsed root tree) (hn : ∀ c, (f c).name = c.name)
    (hs : ∀ c, (f c).subcommands = c.subcommands)
    (hp : ∀ c c', root.resolve p = some c → c.Marked (allFiles p) (allUsed p) c' →
      c.Marked (allFiles' p) (allUsed' p) (f c'))
    (hf : ∀ q, q ≠ p → allFiles' q = allFiles q)
    (hu : ∀ q, q ≠ p → ∀ t n, allUsed' q t n ↔ allUsed q t n) :
    MarkedTree allFiles' allUsed' root (tree.modifyAt f p) := by
  intro q
  refine rel_comp (h q) (resolve_modifyAt hn hs p q tree) fun c c' d hx hc hd ↦ ?_
  by_cases hqp : q = p
  · subst hqp
    rw [if_pos rfl] at hd
    exact (hp c c' hx hc).of_altered hd (hs c')
  · rw [if_neg hqp] at hd
    have hc' : c.Marked (allFiles' q) (allUsed' q) c' := by
      rw [hf q hqp]
      exact hc.congr fun t n ↦ (hu q hqp t n).symm
    exact Marked.of_altered (g := id) hc' hd rfl

theorem name_markArg (name : String) (c : Command) : (Coverage.markArg name c).name = c.name := by
  unfold Coverage.markArg
  split <;> rfl

theorem subcommands_markArg (name : String) (c : Command) :
    (Coverage.markArg name c).subcommands = c.subcommands := by
  unfold Coverage.markArg
  split <;> rfl

end step

end Command

namespace Coverage

open scoped Classical

variable {root : Command} {files : List String → List String}
  {used : List String → ArgTable → String → Prop} {i : Invocation} {c : Coverage}

def Unknown (root : Command) (path : List String) (name : String) : Prop :=
  ∀ owner t a, ¬root.Finds path name owner t a

theorem lookup_isNone_iff (h : MarkedTree files used root c.tree)
    (hi : (root.resolve i.path).isSome) {name : String} :
    c.tree.lookup name i.path = none ↔ Unknown root i.path name := by
  have hi' : (c.tree.resolve i.path).isSome := by rwa [h.isSome_eq]
  constructor
  · intro hl owner t a ha
    obtain ⟨b, hb, -⟩ := h.finds_iff.2 ⟨a, ha, rfl⟩
    simp [(lookup_eq_some_iff hi').2 ⟨t, hb⟩] at hl
  · intro hn
    by_contra hl
    obtain ⟨⟨owner, a⟩, hx⟩ := Option.ne_none_iff_exists'.1 hl
    obtain ⟨t, ht⟩ := (lookup_eq_some_iff hi').1 hx
    obtain ⟨b, hb, -⟩ := h.finds_iff.1 ⟨a, ht, rfl⟩
    exact hn owner t b hb

theorem useAt_marked (h : MarkedTree files used root c.tree) (hi : (root.resolve i.path).isSome)
    (name : String) :
    MarkedTree files (fun q t n ↦ used q t n ∨ ∃ a, root.Finds i.path name q t a ∧ a.name = n) root
      (useAt i c name).tree := by
  unfold useAt
  cases hl : c.tree.lookup name i.path with
  | none =>
    have hn := (lookup_isNone_iff h hi).1 hl
    exact h.congr (fun q _ ↦ rfl) fun q _ t n ↦ by simp [hn q t]
  | some x =>
    obtain ⟨owner, b⟩ := x
    obtain ⟨t, ht⟩ := (lookup_eq_some_iff (by rwa [h.isSome_eq])).1 hl
    obtain ⟨a, ha, -⟩ := h.finds_iff.1 ⟨b, ht, rfl⟩
    refine h.modifyAt (name_markArg name) (subcommands_markArg name) (fun d d' hd hm ↦ ?_)
      (fun q _ ↦ rfl) fun q hq u n ↦ ?_
    · refine (hm.markArg name).congr fun u n ↦ ?_
      simp only [ha.means_iff hd]
    · have : ∀ e, ¬root.Finds i.path name q u e := fun e he ↦ hq (he.unique ha).1
      simp [this]

theorem useAt_warnings (h : MarkedTree files used root c.tree) (hi : (root.resolve i.path).isSome)
    (name : String) : (useAt i c name).warnings =
      c.warnings ++ if Unknown root i.path name then [unknownFlag i name] else [] := by
  unfold useAt
  cases hl : c.tree.lookup name i.path with
  | none => simp [(lookup_isNone_iff h hi).1 hl]
  | some x =>
    have : ¬Unknown root i.path name := by simp [← lookup_isNone_iff h hi, hl]
    simp [this]

theorem useAt_orphans (c : Coverage) (name : String) : (useAt i c name).orphans = c.orphans := by
  unfold useAt
  split <;> rfl

theorem foldl_useAt (names : List String) (h : MarkedTree files used root c.tree)
    (hi : (root.resolve i.path).isSome) :
    MarkedTree files (fun q t n ↦ used q t n ∨
        ∃ name ∈ names, ∃ a, root.Finds i.path name q t a ∧ a.name = n) root
      (names.foldl (useAt i) c).tree ∧
    (names.foldl (useAt i) c).warnings =
      c.warnings ++ (names.filter (Unknown root i.path)).map (unknownFlag i) ∧
    (names.foldl (useAt i) c).orphans = c.orphans := by
  induction names generalizing c used with
  | nil => exact ⟨h.congr (fun q _ ↦ rfl) fun q _ t n ↦ by simp, by simp, rfl⟩
  | cons name names ih =>
    obtain ⟨ht, hw, ho⟩ := ih (useAt_marked h hi name)
    refine ⟨ht.congr (fun q _ ↦ rfl) fun q _ t n ↦ by simp [or_assoc], ?_, ?_⟩
    · rw [List.foldl_cons, hw, useAt_warnings h hi]
      by_cases hu : Unknown root i.path name <;> simp [hu]
    · rw [List.foldl_cons, ho, useAt_orphans]

theorem mem_names {name : String} : name ∈ i.names ↔ name ∈ i.flags ∨ name ∈ i.options := by
  rw [Invocation.names, Text.mem_sortedSet, List.mem_append]

def filesAt (is : List Invocation) (path : List String) : List String :=
  (is.filter (·.path = path)).map (·.file)

/-- Some invocation has a name that finds the argument of this name in the table of the command. -/
def Uses (root : Command) (is : List Invocation) (path : List String) (t : ArgTable) (n : String) :
    Prop :=
  ∃ i ∈ is, ∃ name, (name ∈ i.flags ∨ name ∈ i.options) ∧
    ∃ a, root.Finds i.path name path t a ∧ a.name = n

noncomputable def warningsOf (root : Command) (i : Invocation) : List Warning :=
  if (root.resolve i.path).isNone then [orphanPattern root i]
  else (i.names.filter (Unknown root i.path)).map (unknownFlag i)

theorem name_eq (h : MarkedTree files used root c.tree) : c.tree.name = root.name := by
  have hr := h []
  simp only [resolve] at hr
  cases hr with
  | some hr => simpa [own] using congrArg Command.name hr.same

/-- One invocation adds its file where its path leads, and the arguments that its names find. -/
theorem add_marked (h : MarkedTree files used root c.tree) (i : Invocation) :
    MarkedTree (fun q ↦ files q ++ filesAt [i] q) (fun q t n ↦ used q t n ∨ Uses root [i] q t n) root
      (add c i).tree ∧
    (add c i).orphans = c.orphans ++ ([i].filter fun i ↦ (root.resolve i.path).isNone) ∧
    (add c i).warnings = c.warnings ++ warningsOf root i := by
  have hr := h i.path
  unfold add
  generalize hx : root.resolve i.path = x, hy : c.tree.resolve i.path = y at hr
  cases hr with
  | none =>
    refine ⟨h.congr (fun q hq ↦ ?_) (fun q hq t n ↦ ?_), by simp [hx], ?_⟩
    · have : i.path ≠ q := by rintro rfl; simp [hx] at hq
      simp [filesAt, this]
    · simp only [Uses, List.mem_singleton, exists_eq_left, iff_self_or]
      rintro ⟨name, -, a, ha, -⟩
      simpa [hx] using ha.leads
    · simp [warningsOf, hx, orphanPattern, name_eq h]
  | @some d d' hd =>
    have hi : (root.resolve i.path).isSome := by simp [hx]
    have hrun : MarkedTree (fun q ↦ files q ++ filesAt [i] q) used root
        (c.tree.modifyAt (runBy i.file) i.path) := by
      refine h.modifyAt (fun _ ↦ rfl) (fun _ ↦ rfl) (fun e e' _ he ↦ ?_) (fun q hq ↦ ?_)
        fun q _ t n ↦ Iff.rfl
      · simpa [filesAt] using he.runBy i.file
      · simp [filesAt, Ne.symm hq]
    obtain ⟨ht, hw, ho⟩ := foldl_useAt (c := { c with tree := c.tree.modifyAt (runBy i.file) i.path })
      i.names hrun hi
    refine ⟨ht.congr (fun q _ ↦ rfl) fun q _ t n ↦ ?_, ?_, ?_⟩
    · simp [Uses, mem_names]
    · simp [ho, hx]
    · simp [hw, warningsOf, hx]

theorem foldl_add (is : List Invocation) (h : MarkedTree files used root c.tree) :
    MarkedTree (fun q ↦ files q ++ filesAt is q) (fun q t n ↦ used q t n ∨ Uses root is q t n) root
      (is.foldl add c).tree ∧
    (is.foldl add c).orphans = c.orphans ++ (is.filter fun i ↦ (root.resolve i.path).isNone) ∧
    (is.foldl add c).warnings = c.warnings ++ is.flatMap (warningsOf root) := by
  induction is generalizing c files used with
  | nil =>
    exact ⟨h.congr (fun q _ ↦ by simp [filesAt]) fun q _ t n ↦ by simp [Uses], by simp, by simp⟩
  | cons i is ih =>
    obtain ⟨ht, ho, hw⟩ := add_marked h i
    obtain ⟨ht', ho', hw'⟩ := ih ht
    refine ⟨ht'.congr (fun q _ ↦ ?_) (fun q _ t n ↦ ?_), ?_, ?_⟩
    · by_cases hq : i.path = q <;> simp [filesAt, hq]
    · simp [Uses, or_assoc]
    · rw [List.foldl_cons, ho', ho, List.append_assoc, ← List.filter_append, List.singleton_append]
    · rw [List.foldl_cons, hw', hw, List.append_assoc, List.flatMap_cons]

theorem markedTree_self (root : Command) :
    MarkedTree (fun _ ↦ []) (fun _ _ _ ↦ False) root root := by
  intro q
  cases root.resolve q with
  | none => exact .none
  | some c =>
    refine .some ⟨rfl, rfl, by simp, by simp, fun t ↦ ?_⟩
    exact List.forall₂_same.2 fun a _ ↦ ⟨rfl, by simp⟩

theorem compute_markedTree (root : Command) (is : List Invocation) :
    MarkedTree (filesAt is) (Uses root is) root (compute root is).tree := by
  obtain ⟨h, -, -⟩ := foldl_add (c := { tree := root }) is (markedTree_self root)
  exact h.congr (fun q _ ↦ by simp) fun q _ t n ↦ by simp

/-- The marks on the tree are those of the runs that lead to each command and of the arguments that
their names find, and nothing else changes. The invocations that lead to no command are set apart.
Each of them, and each name of another one that finds nothing, gives a warning, in the order of the
invocations and of their sorted names. -/
theorem compute_marks_exactly (root : Command) (is : List Invocation) :
    MarkedTree (filesAt is) (Uses root is) root (compute root is).tree ∧
    (compute root is).orphans = (is.filter fun i ↦ (root.resolve i.path).isNone) ∧
    (compute root is).warnings = is.flatMap (warningsOf root) ∧
    ∀ i : Invocation, i.names.Pairwise (· < ·) ∧
      ∀ name, name ∈ i.names ↔ name ∈ i.flags ∨ name ∈ i.options := by
  obtain ⟨-, ho, hw⟩ := foldl_add (c := { tree := root }) is (markedTree_self root)
  refine ⟨compute_markedTree root is, ?_, ?_,
    fun i ↦ ⟨Text.sortedSet_pairwise _, fun name ↦ mem_names⟩⟩
  · rw [compute, ho, List.nil_append]
  · rw [compute, hw, List.nil_append]

end Coverage

end CommandCoverage
