import CommandCoverage.Proofs.Command.Places

namespace CommandCoverage.Command

structure Keyed (c : Command) : Prop where
  apart : ∀ name k l, name ∈ (c.declared k).map (·.name) → name ∈ (c.declared l).map (·.name) → k = l
  args : ∀ k, ((c.declared k).map (·.name)).Nodup
  subcommands : (c.subcommands.map (·.name)).Nodup

def KeyedTree (root : Command) : Prop :=
  ∀ place path c, root.At place path c → c.Keyed

/-- The trees that calls make of commands with empty tables. A call may be on any command of a tree,
and a command that another one has replaced is the root of a tree of its own. -/
inductive Built : Command → Prop
  | bare {c : Command} : (∀ k, c.declared k = []) → c.subcommands = [] → Built c
  | addArg {c : Command} (path : List String) (a : Arg) :
      Built c → Built (c.modifyAt (·.addArg a) path)
  | addSubcommand {c child : Command} (path : List String) :
      Built c → Built child → Built (c.modifyAt (·.addSubcommand child) path)
  | part {c d : Command} {path : List String} : Built c → c.resolve path = some d → Built d

def atPlace : Command → List Nat → Option Command
  | c, [] => some c
  | c, i :: place => c.subcommands[i]?.bind (·.atPlace place)

def namesUp (root : Command) : List Nat → List String
  | [] => []
  | i :: above => ((root.atPlace (i :: above).reverse).map (·.name)).toList ++ namesUp root above

def pathTo (root : Command) (place : List Nat) : List String :=
  (root.namesUp place.reverse).reverse

mutual

def levelsFrom (depth : Nat) : Command → List (Command × Nat)
  | ⟨n, d, fs, os, ps, cs, sf, sl, im, ws, t, tf⟩ =>
    (⟨n, d, fs, os, ps, cs, sf, sl, im, ws, t, tf⟩, depth) :: levelsFromAll (depth + 1) cs

def levelsFromAll (depth : Nat) : List Command → List (Command × Nat)
  | [] => []
  | c :: cs => levelsFrom depth c ++ levelsFromAll depth cs

end

/-- Paths and the commands of a tree, which are told apart by their places, determine each other. -/
structure Navigable (root : Command) : Prop where
  nodes : root.nodes = root.placed.map fun y ↦ (root.pathTo y.place, y.command)
  depth : root.levelsFrom 1 = root.nodes.map fun x ↦ (x.2, x.1.length + 1)
  atPlace : ∀ y ∈ root.placed, root.atPlace y.place = some y.command
  resolve : ∀ y ∈ root.placed, root.resolve (root.pathTo y.place) = some y.command
  pathTo : ∀ path c, root.resolve path = some c →
    ∃ y ∈ root.placed, y.command = c ∧ root.pathTo y.place = path
  apart : ∀ y ∈ root.placed, ∀ z ∈ root.placed,
    root.pathTo y.place = root.pathTo z.place → y.place = z.place

structure Unambiguous (c : Command) : Prop where
  apart : ∀ name k l, name ∈ (c.declared k).map (·.name) → name ∈ (c.declared l).map (·.name) → k = l
  arg : ∀ k key a, (c.declared k).find? (·.name == key) = some a ↔ a ∈ c.declared k ∧ a.name = key
  child : ∀ key d, c.child key = some d ↔ d ∈ c.subcommands ∧ d.name = key

variable {a : Arg} {c d root child x : Command} {name : String} {path : List String}
  {place : List Nat} {f : Command → Command} {k : ArgKind}

section Keyed

theorem mem_names_addArg : name ∈ ((c.addArg a).declared k).map (·.name) ↔
    if name = a.name then a.kind = k else name ∈ (c.declared k).map (·.name) := by
  have hkept : name ∈ (without a.name (c.declared k)).map (·.name) ↔
      name ≠ a.name ∧ name ∈ (c.declared k).map (·.name) := by
    simp only [without, List.mem_map, List.mem_filter, bne_iff_ne]
    constructor
    · rintro ⟨b, ⟨hb, hn⟩, rfl⟩
      exact ⟨hn, b, hb, rfl⟩
    · rintro ⟨hn, b, hb, rfl⟩
      exact ⟨b, ⟨hb, hn⟩, rfl⟩
  have hnew : name ∈ (if a.kind = k then [a] else []).map (·.name) ↔ a.kind = k ∧ name = a.name := by
    split <;> simp [*]
  rw [declared_addArg, List.map_append, List.mem_append, hkept, hnew]
  by_cases hn : name = a.name <;> simp [hn]

theorem Keyed.addArg (h : c.Keyed) (a : Arg) : (c.addArg a).Keyed where
  apart name k l hk hl := by
    rw [mem_names_addArg] at hk hl
    split at hk
    · rw [if_pos ‹_›] at hl
      exact hk.symm.trans hl
    · rw [if_neg ‹_›] at hl
      exact h.apart name k l hk hl
  args k := by
    have hkept : ((without a.name (c.declared k)).map (·.name)).Nodup :=
      (h.args k).sublist (List.filter_sublist.map _)
    rw [declared_addArg, List.map_append]
    split
    · refine List.nodup_append.2 ⟨hkept, List.nodup_singleton _, fun n hn m hm ↦ ?_⟩
      obtain ⟨b, hb, rfl⟩ := List.mem_map.1 hn
      obtain rfl := List.mem_singleton.1 hm
      simpa using (List.mem_filter.1 hb).2
    · simpa using hkept
  subcommands := by
    rw [subcommands_addArg]
    exact h.subcommands

theorem Keyed.addSubcommand (h : c.Keyed) (child : Command) : (c.addSubcommand child).Keyed where
  apart := h.apart
  args := h.args
  subcommands := nodup_names_putChild child h.subcommands

theorem Keyed.distinct (h : c.Keyed) : c.Distinct where
  subcommands := h.subcommands
  args := by
    rw [Command.args, List.map_append]
    refine List.nodup_append.2 ⟨h.args .flag, h.args .option, ?_⟩
    rintro name hf _ ho rfl
    have := h.apart name .flag .option hf ho
    contradiction

theorem Keyed.unambiguous (h : c.Keyed) : c.Unambiguous where
  apart := h.apart
  arg k _ _ := find?_key_eq_some_iff (h.args k)
  child _ _ := find?_key_eq_some_iff h.subcommands

theorem findArg_addArg (c : Command) (ha : a.isPositional = false) :
    (c.addArg a).findArg a.name = some a := by
  have hwithout (as : List Arg) : (without a.name as).find? (·.name == a.name) = none := by
    simp [without]
  have hargs : (c.addArg a).args.find? (·.name == a.name) = some a := by
    rw [Command.addArg, if_neg (by simp [ha]), Command.args]
    split <;> simp [hwithout]
  -- An argument has the name now, so aliases do not count.
  have hfits : (c.addArg a).fits a.name = (·.name == a.name) := by
    have hany : (c.addArg a).args.any (·.name == a.name) = true :=
      List.any_eq_true.2 ⟨a, List.mem_of_find?_eq_some hargs, by simp⟩
    funext b
    rw [fits, if_pos hany]
  rw [findArg, hfits, hargs]

theorem keyedTree_iff : c.KeyedTree ↔ c.Keyed ∧ ∀ d ∈ c.subcommands, d.KeyedTree := by
  constructor
  · intro h
    refine ⟨h [] [] c (.here c), fun d hd place path x hx ↦ ?_⟩
    obtain ⟨i, hi⟩ := List.mem_iff_getElem?.1 hd
    exact h _ _ x (.down hi hx)
  · rintro ⟨hc, hs⟩ place path x hx
    cases hx with
    | here => exact hc
    | down hd hx => exact hs _ (List.mem_of_getElem? hd) _ _ x hx

end Keyed

section Built

/-- Changing a command leaves a tree keyed when it keeps the name and what is below is keyed. -/
theorem KeyedTree.modifyAt (hn : ∀ c, (f c).name = c.name) (hf : ∀ c, c.KeyedTree → (f c).KeyedTree)
    (h : c.KeyedTree) (path : List String) : (c.modifyAt f path).KeyedTree := by
  induction path generalizing c with
  | nil => exact hf c h
  | cons p ps ih =>
    obtain ⟨hc, hs⟩ := keyedTree_iff.1 h
    refine keyedTree_iff.2 ⟨⟨hc.apart, hc.args, ?_⟩, fun d hd ↦ ?_⟩
    -- The tables of the command stay; below it only the change itself matters.
    · have hnames : (c.modifyAt f (p :: ps)).subcommands.map (·.name) =
          c.subcommands.map (·.name) := by
        simp only [Command.modifyAt, List.map_map, List.map_inj_left, Function.comp_apply]
        intro d _
        split
        · exact name_modifyAt hn ps d
        · rfl
      rw [hnames]
      exact hc.subcommands
    · obtain ⟨e, he, rfl⟩ := List.mem_map.1 hd
      split
      · exact ih (hs e he)
      · exact hs e he

theorem KeyedTree.addArg (h : c.KeyedTree) (a : Arg) : (c.addArg a).KeyedTree := by
  obtain ⟨hc, hs⟩ := keyedTree_iff.1 h
  refine keyedTree_iff.2 ⟨hc.addArg a, ?_⟩
  rwa [subcommands_addArg]

theorem KeyedTree.addSubcommand (h : c.KeyedTree) (hd : child.KeyedTree) :
    (c.addSubcommand child).KeyedTree := by
  obtain ⟨hc, hs⟩ := keyedTree_iff.1 h
  refine keyedTree_iff.2 ⟨hc.addSubcommand child, fun d h ↦ ?_⟩
  rcases mem_putChild h with rfl | h
  · exact hd
  · exact hs d h

theorem KeyedTree.of_resolve (h : c.KeyedTree) (hd : c.resolve path = some d) : d.KeyedTree := by
  induction path generalizing c with
  | nil =>
    obtain rfl := Option.some.inj hd
    exact h
  | cons p ps ih =>
    obtain ⟨e, he, hd⟩ := Option.bind_eq_some_iff.1 hd
    exact ih ((keyedTree_iff.1 h).2 e (List.mem_of_find?_eq_some he)) hd

theorem name_addArg (c : Command) (a : Arg) : (c.addArg a).name = c.name := by
  unfold Command.addArg
  dsimp only
  split
  · rfl
  · split <;> rfl

theorem name_addSubcommand (c child : Command) : (c.addSubcommand child).name = c.name := rfl

theorem Built.keyedTree (h : Built root) : root.KeyedTree := by
  induction h with
  | bare ht hs =>
    refine keyedTree_iff.2 ⟨⟨?_, ?_, ?_⟩, ?_⟩ <;> simp [ht, hs]
  | addArg path a _ ih => exact ih.modifyAt (name_addArg · a) (fun c hc ↦ hc.addArg a) path
  | addSubcommand path _ _ ih ihc =>
    exact ih.modifyAt (name_addSubcommand · _) (fun c hc ↦ hc.addSubcommand ihc) path
  | part _ hd ih => exact ih.of_resolve hd

theorem KeyedTree.distinctTree (h : root.KeyedTree) : root.DistinctTree := by
  intro path c hc
  exact ((keyedTree_iff.1 (h.of_resolve hc)).1).distinct

end Built

section paths

theorem At.atPlace (h : c.At place path x) : c.atPlace place = some x := by
  induction h with
  | here => rfl
  | down hd _ ih => rw [Command.atPlace, hd, Option.bind_some, ih]

/-- The last step of the way to a command is from the one it is registered with. -/
theorem At.above {i : Nat} (h : c.At (place ++ [i]) path x) :
    ∃ above p, path = above ++ [x.name] ∧ c.At place above p := by
  induction place generalizing c path with
  | nil =>
    cases h with
    | down hd hx =>
      cases hx
      exact ⟨[], c, rfl, .here c⟩
  | cons j place ih =>
    cases h with
    | @down _ d _ _ _ path hd hx =>
      obtain ⟨above, p, rfl, hp⟩ := ih hx
      exact ⟨d.name :: above, p, rfl, .down hd hp⟩

theorem At.pathTo_eq (h : root.At place path x) : root.pathTo place = path := by
  -- From the end of the place, since names are read upwards.
  induction place using List.reverseRecOn generalizing path x with
  | nil =>
    cases h
    rfl
  | append_singleton place i ih =>
    obtain ⟨above, p, rfl, hp⟩ := h.above
    have hup : (root.namesUp place.reverse).reverse = above := ih hp
    have hx := h.atPlace
    rw [pathTo, List.reverse_append, List.reverse_singleton, List.singleton_append, namesUp,
      List.reverse_append, List.reverse_cons, List.reverse_reverse, hx, hup]
    rfl

mutual

theorem levelsFrom_eq_placed : (c : Command) → (depth : Nat) →
    c.levelsFrom depth = c.placed.map fun y ↦ (y.command, depth + y.path.length)
  | ⟨n, d, fs, os, ps, cs, sf, sl, im, ws, t, tf⟩, depth => by
    rw [levelsFrom, placed, List.map_cons, levelsFromAll_eq_placed cs depth 0]
    rfl

theorem levelsFromAll_eq_placed : (cs : List Command) → (depth : Nat) → (i : Nat) →
    levelsFromAll (depth + 1) cs = (placedAll i cs).map fun y ↦ (y.command, depth + y.path.length)
  | [], _, _ => rfl
  | c :: cs, depth, i => by
    rw [levelsFromAll, placedAll, levelsFrom_eq_placed c (depth + 1),
      levelsFromAll_eq_placed cs depth (i + 1), List.map_append, List.map_map]
    congr 1
    refine List.map_congr_left fun y _ ↦ ?_
    simp only [Placed.under, Function.comp_apply, List.length_cons]
    rw [Nat.add_assoc, Nat.add_comm 1]

end

theorem nodes_eq_pathTo (root : Command) :
    root.nodes = root.placed.map fun y ↦ (root.pathTo y.place, y.command) := by
  rw [nodes_eq_placed]
  refine List.map_congr_left fun y hy ↦ ?_
  rw [(at_of_mem_placed root y hy).pathTo_eq]

theorem levelsFrom_one_eq (root : Command) :
    root.levelsFrom 1 = root.nodes.map fun x ↦ (x.2, x.1.length + 1) := by
  rw [levelsFrom_eq_placed, nodes_eq_placed, List.map_map]
  refine List.map_congr_left fun y _ ↦ ?_
  rw [Nat.add_comm]
  rfl

theorem DistinctTree.resolve_iff (h : root.DistinctTree) :
    root.resolve path = some c ↔ ∃ place, root.At place path c := by
  rw [← mem_nodes_iff h, nodes_eq_placed, List.mem_map]
  constructor
  · rintro ⟨y, hy, he⟩
    obtain ⟨rfl, rfl⟩ := Prod.mk.inj he
    exact ⟨y.place, at_of_mem_placed root y hy⟩
  · rintro ⟨place, hp⟩
    exact ⟨_, hp.mem_placed, rfl⟩

theorem DistinctTree.place_unique (h : root.DistinctTree) {other : List Nat}
    (hc : root.At place path c) (hd : root.At other path d) : place = other := by
  have hu := nodup_paths h
  rw [nodes_eq_placed, List.map_map] at hu
  have hplaced := List.inj_on_of_nodup_map hu hc.mem_placed hd.mem_placed rfl
  exact congrArg Placed.place hplaced

/-- Where names below a command differ, every command has one path and every path one command. -/
theorem DistinctTree.navigable (h : root.DistinctTree) : root.Navigable where
  nodes := nodes_eq_pathTo root
  depth := levelsFrom_one_eq root
  atPlace y hy := (at_of_mem_placed root y hy).atPlace
  resolve y hy := by
    have hat := at_of_mem_placed root y hy
    rw [hat.pathTo_eq]
    exact h.resolve_iff.2 ⟨y.place, hat⟩
  pathTo path c hc := by
    obtain ⟨place, hat⟩ := h.resolve_iff.1 hc
    exact ⟨_, hat.mem_placed, rfl, hat.pathTo_eq⟩
  apart y hy z hz he := by
    have hat := at_of_mem_placed root y hy
    have hat' := at_of_mem_placed root z hz
    rw [hat.pathTo_eq, hat'.pathTo_eq] at he
    exact h.place_unique hat (he ▸ hat')

end paths

/-- However a tree is built, its commands have unambiguous names and unambiguous paths, and an
argument that is declared on any of them is found there. -/
theorem Built.unambiguous_navigable (h : Built root) :
    root.Navigable ∧ (∀ path c, (path, c) ∈ root.nodes → c.Unambiguous) ∧
      ∀ path c a, (path, c) ∈ root.nodes → a.isPositional = false →
        (root.modifyAt (·.addArg a) path).resolve path = some (c.addArg a) ∧
          (c.addArg a).findArg a.name = some a := by
  have hk := h.keyedTree
  refine ⟨hk.distinctTree.navigable, fun path c hc ↦ ?_, fun path c a hc ha ↦ ?_⟩
  · have hresolve := (mem_nodes_iff hk.distinctTree).1 hc
    exact (keyedTree_iff.1 (hk.of_resolve hresolve)).1.unambiguous
  · have hresolve := (mem_nodes_iff hk.distinctTree).1 hc
    exact ⟨resolve_modifyAt_self (name_addArg · a) hresolve, findArg_addArg c ha⟩

/-- A tree in which an argument changes its table, a subcommand is replaced, and the one that it
replaced comes back with an argument more. -/
def rebuilt : Command :=
  (((draft.modifyAt (·.addSubcommand newBuild) []).modifyAt (·.addArg output) ["build"]).modifyAt
    (·.addSubcommand (oldBuild.modifyAt (·.addArg output) [])) [])
where
  output : Arg := { name := "out", type := "boolean" }
  oldBuild : Command :=
    (({ name := "build" } : Command).modifyAt (·.addArg { name := "out" }) []).modifyAt
      (·.addSubcommand { name := "watch" }) []
  newBuild : Command := { name := "build" }
  draft : Command := ({ name := "cli" } : Command).modifyAt (·.addSubcommand oldBuild) []

theorem built_rebuilt : Built rebuilt := by
  have hbare (name : String) : Built { name } := .bare (fun k ↦ by cases k <;> rfl) rfl
  have hold : Built rebuilt.oldBuild := .addSubcommand _ (.addArg _ _ (hbare "build")) (hbare "watch")
  have hdraft : Built rebuilt.draft := .addSubcommand _ (hbare "cli") hold
  have hplace : rebuilt.draft.resolve ["build"] = some rebuilt.oldBuild := rfl
  have hcut : Built rebuilt.oldBuild := .part hdraft hplace
  exact .addSubcommand _ (.addArg _ _ (.addSubcommand _ hdraft (hbare "build"))) (.addArg _ _ hcut)

theorem unambiguous_navigable_rebuilt :
    Built rebuilt ∧ rebuilt.nodes.map (·.1) = [[], ["build"], ["build", "watch"]] ∧
      rebuilt.Navigable ∧ (∀ path c, (path, c) ∈ rebuilt.nodes → c.Unambiguous) ∧
      ∀ path c a, (path, c) ∈ rebuilt.nodes → a.isPositional = false →
        (rebuilt.modifyAt (·.addArg a) path).resolve path = some (c.addArg a) ∧
          (c.addArg a).findArg a.name = some a :=
  ⟨built_rebuilt, rfl, built_rebuilt.unambiguous_navigable⟩

end CommandCoverage.Command
