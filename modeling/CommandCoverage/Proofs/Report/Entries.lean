import CommandCoverage.Proofs.Coverage.Counts
import CommandCoverage.Proofs.Coverage.Marks
import CommandCoverage.Proofs.Discovery.Distinct
import CommandCoverage.Proofs.Table
import CommandCoverage.Report.Basic

namespace CommandCoverage

open Command

namespace Records

def allCommands (r : Records) : Record := r.commands.plus r.subcommands

theorem allCommands_ofTree (root : Command) : (ofTree root).allCommands =
    ⟨root.nodes.length, root.nodes.countP (·.2.tested)⟩ := by
  rw [allCommands, commands_ofTree, subcommands_ofTree, nodes, nodesFrom_eq, List.length_cons,
    List.countP_cons]
  simp only [Record.plus, Nat.add_comm]

end Records

namespace Report

variable {root : Command} {g : Goals} {o : Origin} {earlier : List Warning} {c : Coverage}
  {r : Report}

def namedNodes (root : Command) : List (String × Command) :=
  root.nodes.map fun x ↦ (root.fullName x.1, x.2)

def fullNames (root : Command) : List String := (namedNodes root).map (·.1)

/-- A report that has one entry for each command of a tree, so that counting over the entries gives
its counts. -/
structure Consistent (r : Report) (root : Command) : Prop where
  entries : r.commands.entries = namedNodes root
  keys : r.commands.keys.Nodup
  total : r.commands.entries.length = r.records.commands.total + r.records.subcommands.total
  tested : r.commands.values.countP (·.tested) =
    r.records.commands.tested + r.records.subcommands.tested
  args : ∀ t, (r.commands.values.flatMap (·.table t)).length = (r.records.ofTable t).total
  testedArgs : ∀ t, (r.commands.values.flatMap (·.table t)).countP (·.tested) =
    (r.records.ofTable t).tested

theorem intercalate_cons (cs : List Char) (ps : List (List Char)) :
    [' '].intercalate (cs :: ps) = cs ++ [' '].intercalate ([] :: ps) := by
  cases ps <;> simp [List.intercalate]

theorem fullName_inj {ps qs : List String} (hp : ∀ p ∈ ps, ' ' ∉ p.toList)
    (hq : ∀ q ∈ qs, ' ' ∉ q.toList) (h : root.fullName ps = root.fullName qs) : ps = qs := by
  have hsplit {ps : List String} (hp : ∀ p ∈ ps, ' ' ∉ p.toList) :
      ([' '].intercalate ([] :: ps.map String.toList)).splitOn ' ' = [] :: ps.map String.toList := by
    refine List.splitOn_intercalate ' ' ?_ (List.cons_ne_nil _ _)
    intro cs hcs
    rcases List.mem_cons.1 hcs with rfl | hcs
    · exact List.not_mem_nil
    · obtain ⟨p, hmem, rfl⟩ := List.mem_map.1 hcs
      exact hp p hmem
  have hchars := congrArg String.toList h
  have hspace : " ".toList = [' '] := rfl
  rw [fullName, fullName, String.toList_intercalate, String.toList_intercalate, hspace, List.map_cons,
    List.map_cons, intercalate_cons, intercalate_cons root.name.toList] at hchars
  have hrest := congrArg (List.splitOn ' ') (List.append_cancel_left hchars)
  rw [hsplit hp, hsplit hq] at hrest
  exact List.map_injective_iff.2 (fun _ _ ↦ String.toList_inj.1) (List.cons.inj hrest).2

theorem nodup_fullNames (h : root.DistinctTree)
    (hs : ∀ path, (root.resolve path).isSome → ∀ p ∈ path, ' ' ∉ p.toList) :
    (fullNames root).Nodup := by
  have hspaceless : ∀ x ∈ root.nodes, ∀ p ∈ x.1, ' ' ∉ p.toList := by
    intro x hx
    have hresolve : root.resolve x.1 = some x.2 := (mem_nodes_iff h).1 hx
    exact hs x.1 (by simp [hresolve])
  have hpaths : (root.nodes.map (·.1)).Nodup := nodup_paths h
  rw [fullNames, namedNodes, List.map_map]
  refine List.Nodup.map_on ?_ (List.Nodup.of_map _ hpaths)
  intro x hx y hy hxy
  have hpath : x.1 = y.1 := fullName_inj (hspaceless x hx) (hspaceless y hy) hxy
  exact List.inj_on_of_nodup_map hpaths hx hy hpath

theorem commandsOf_eq (root : Command) :
    commandsOf root = (namedNodes root).foldl (fun t x ↦ t.set x.1 x.2) {} := by
  rw [namedNodes, List.foldl_map]
  rfl

theorem entries_commandsOf (h : (fullNames root).Nodup) :
    (commandsOf root).entries = namedNodes root := by
  rw [commandsOf_eq]
  exact Table.entries_foldl_set h

theorem nodup_keys_commandsOf (root : Command) : (commandsOf root).keys.Nodup := by
  rw [commandsOf_eq]
  exact Table.nodup_keys_foldl_set List.nodup_nil

theorem eq_of_ofCoverage (h : ofCoverage g o earlier c = .ok r) :
    r.records = c.records ∧ r.commands = commandsOf c.tree := by
  unfold ofCoverage at h
  cases hrs : Recommendation.ofCoverage g c with
  | error f => simp [hrs, Except.map] at h
  | ok rs =>
    rw [hrs] at h
    exact Except.ok.inj h ▸ ⟨rfl, rfl⟩

theorem Consistent.nodup (h : r.Consistent root) : (fullNames root).Nodup := by
  have hkeys := h.keys
  rw [Table.keys, h.entries] at hkeys
  exact hkeys

theorem consistent_of_nodup (hr : ofCoverage g o earlier c = .ok r) (h : (fullNames c.tree).Nodup) :
    r.Consistent c.tree := by
  obtain ⟨hrecords, hcommands⟩ := eq_of_ofCoverage hr
  have hentries : (commandsOf c.tree).entries = namedNodes c.tree := entries_commandsOf h
  have hvalues : (commandsOf c.tree).values = c.tree.nodes.map (·.2) := by
    rw [Table.values, hentries, namedNodes, List.map_map]
    rfl
  have hargs (t : ArgTable) : (commandsOf c.tree).values.flatMap (·.table t) =
      c.tree.nodes.flatMap (·.2.table t) := by
    rw [hvalues, List.flatMap_map]
  have hall := Records.allCommands_ofTree c.tree
  have htable := Records.ofTable_ofTree c.tree
  rw [← hcommands] at hentries hvalues hargs
  refine ⟨hentries, ?_, ?_, ?_, fun t ↦ ?_, fun t ↦ ?_⟩
  · rw [hcommands]
    exact nodup_keys_commandsOf c.tree
  · have htotal := congrArg Record.total hall
    rw [hrecords]
    exact (congrArg List.length hentries).trans ((List.length_map _).trans htotal.symm)
  · have htested := congrArg Record.tested hall
    rw [hrecords]
    exact (congrArg (List.countP _) hvalues).trans (List.countP_map.trans htested.symm)
  · rw [hrecords]
    exact (congrArg List.length (hargs t)).trans (congrArg Record.total (htable t)).symm
  · rw [hrecords]
    exact (congrArg (List.countP _) (hargs t)).trans (congrArg Record.tested (htable t)).symm

/-- A report is consistent with its tree exactly when the full names of the commands differ. -/
theorem consistent_iff (hr : ofCoverage g o earlier c = .ok r) :
    r.Consistent c.tree ↔ (fullNames c.tree).Nodup :=
  ⟨Consistent.nodup, consistent_of_nodup hr⟩

/-- The report on a tree that was discovered is consistent if no subcommand has a space in its
name. -/
theorem consistent_of_discover {w : Workspace} {entry : String} {σ : Session}
    (hd : ((Analysis.discover w entry).run σ).1 = .ok root)
    (hs : ∀ path, (root.resolve path).isSome → ∀ p ∈ path, ' ' ∉ p.toList) (is : List Invocation)
    (hr : ofCoverage g o earlier (Coverage.compute root is) = .ok r) :
    r.Consistent (Coverage.compute root is).tree := by
  have hmarked := Coverage.compute_markedTree root is
  refine consistent_of_nodup hr (nodup_fullNames (hmarked.distinctTree (discover_distinctTree hd)) ?_)
  intro path hpath
  rw [hmarked.isSome_eq] at hpath
  exact hs path hpath

section clashing

def clashingTree : Command where
  name := "cli"
  subcommands := [
    { name := "a b", flags := [{ name := "force", type := "boolean" }] },
    { name := "a", subcommands := [{ name := "b" }] }]

theorem distinctTree_clashingTree : clashingTree.DistinctTree := by
  have hdistinct : ∀ d ∈ clashingTree.subcommands, d.Distinct ∧ ∀ e ∈ d.subcommands,
      e.subcommands = [] ∧ e.args = [] := by
    intro d hd
    simp only [clashingTree, List.mem_cons, List.not_mem_nil, or_false] at hd
    rcases hd with rfl | rfl
    · exact ⟨⟨by simp, by simp [Command.args]⟩, by simp⟩
    · exact ⟨⟨by simp, by simp [Command.args]⟩, by simp [Command.args]⟩
  refine .of_subcommands ⟨by simp [clashingTree], by simp [clashingTree, Command.args]⟩ fun d hd ↦ ?_
  obtain ⟨hd, hleaves⟩ := hdistinct d hd
  refine .of_subcommands hd fun e he ↦ ?_
  obtain ⟨hs, ha⟩ := hleaves e he
  exact .of_subcommands ⟨by simp [hs], by simp [ha]⟩ (by simp [hs])

theorem exists_report_clashingTree : ∃ r,
    ofCoverage {} { analyzedAt := "", cliPath := "", testDir := "" } []
      (Coverage.compute clashingTree []) = .ok r :=
  ⟨_, rfl⟩

theorem consistent_iff_clashing : ∃ r,
    ofCoverage {} { analyzedAt := "", cliPath := "", testDir := "" } []
        (Coverage.compute clashingTree []) = .ok r ∧
      (r.Consistent (Coverage.compute clashingTree []).tree ↔
        (fullNames (Coverage.compute clashingTree []).tree).Nodup) := by
  obtain ⟨r, hr⟩ := exists_report_clashingTree
  exact ⟨r, hr, consistent_iff hr⟩

theorem exists_not_consistent : ∃ root is g o earlier r, root.DistinctTree ∧
    ofCoverage g o earlier (Coverage.compute root is) = .ok r ∧
      ¬r.Consistent (Coverage.compute root is).tree := by
  obtain ⟨r, hr⟩ := exists_report_clashingTree
  exact ⟨_, _, _, _, _, r, distinctTree_clashingTree, hr, fun h ↦ absurd h.nodup (by decide)⟩

end clashing

end Report

end CommandCoverage
