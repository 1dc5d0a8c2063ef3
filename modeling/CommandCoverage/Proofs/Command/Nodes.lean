import CommandCoverage.Proofs.Command.Lookup
import CommandCoverage.Proofs.Command.Tables
import CommandCoverage.Proofs.Table

namespace CommandCoverage.Command

/-- No two subcommands of a command share a name, and no two of its flags and options do. -/
structure Distinct (c : Command) : Prop where
  subcommands : (c.subcommands.map (·.name)).Nodup
  args : (c.args.map (·.name)).Nodup

def DistinctTree (root : Command) : Prop := ∀ path c, root.resolve path = some c → c.Distinct

variable {c d x root child : Command} {path q ps : List String} {cs : List Command} {name : String}

theorem nodesFrom_eq (path : List String) (c : Command) :
    c.nodesFrom path = (path, c) :: nodesFromAll path c.subcommands := by
  cases c
  rw [nodesFrom]

theorem mem_nodesFromAll :
    (q, x) ∈ nodesFromAll path cs ↔ ∃ c ∈ cs, (q, x) ∈ c.nodesFrom (path ++ [c.name]) := by
  induction cs with
  | nil => simp [nodesFromAll]
  | cons c cs ih => simp [nodesFromAll, ih]

theorem mem_nodesFrom_of_resolve (h : c.resolve ps = some x) (path : List String) :
    (path ++ ps, x) ∈ c.nodesFrom path := by
  induction ps generalizing c path with
  | nil =>
    obtain rfl := Option.some_inj.1 h
    rw [nodesFrom_eq, List.append_nil]
    exact List.mem_cons_self
  | cons p ps ih =>
    obtain ⟨d, hd, hx⟩ := Option.bind_eq_some_iff.1 h
    have hname : d.name = p := by simpa using List.find?_some hd
    have hmem := ih hx (path ++ [d.name])
    rw [hname, List.append_assoc, List.singleton_append] at hmem
    rw [nodesFrom_eq]
    exact List.mem_cons_of_mem _
      (mem_nodesFromAll.2 ⟨d, List.mem_of_find?_eq_some hd, by rwa [hname]⟩)

theorem mem_nodes_of_resolve (h : root.resolve path = some c) : (path, c) ∈ root.nodes := by
  have hmem := mem_nodesFrom_of_resolve h []
  exact hmem

theorem child_of_nodup (hu : (c.subcommands.map (·.name)).Nodup) (hd : d ∈ c.subcommands) :
    c.child d.name = some d :=
  (find?_key_eq_some_iff hu).2 ⟨hd, rfl⟩

theorem child_of_mem (h : c.Distinct) (hd : d ∈ c.subcommands) : c.child d.name = some d :=
  child_of_nodup h.subcommands hd

theorem DistinctTree.here (h : c.DistinctTree) : c.Distinct := h [] c rfl

theorem DistinctTree.of_child (h : c.DistinctTree) (hd : c.child name = some d) :
    d.DistinctTree := by
  intro path x hx
  exact h (name :: path) x (by rw [resolve_cons hd, hx])

theorem DistinctTree.of_mem (h : c.DistinctTree) (hd : d ∈ c.subcommands) : d.DistinctTree :=
  h.of_child (child_of_mem h.here hd)

mutual

theorem exists_resolve_of_nodesFrom : (c : Command) → (path : List String) → c.DistinctTree →
    (q, x) ∈ c.nodesFrom path → ∃ ps, q = path ++ ps ∧ c.resolve ps = some x
  | ⟨n, d, fs, os, ps, cs, sf, sl, im, ws, t, tf⟩, path, h, hx => by
    rw [nodesFrom, List.mem_cons] at hx
    rcases hx with hx | hx
    · obtain ⟨rfl, rfl⟩ := Prod.mk.inj hx
      exact ⟨[], (List.append_nil _).symm, rfl⟩
    · obtain ⟨e, he, qs, rfl, hq⟩ := exists_resolve_of_nodesFromAll cs path
        (fun e he ↦ h.of_mem he) hx
      refine ⟨e.name :: qs, by simp, ?_⟩
      rw [resolve_cons (child_of_mem h.here he), hq]

theorem exists_resolve_of_nodesFromAll : (cs : List Command) → (path : List String) →
    (∀ c ∈ cs, c.DistinctTree) → (q, x) ∈ nodesFromAll path cs →
      ∃ c ∈ cs, ∃ ps, q = path ++ c.name :: ps ∧ c.resolve ps = some x
  | [], _, _, hx => by simp [nodesFromAll] at hx
  | c :: cs, path, h, hx => by
    rw [nodesFromAll, List.mem_append] at hx
    rcases hx with hx | hx
    · obtain ⟨ps, rfl, hp⟩ := exists_resolve_of_nodesFrom c (path ++ [c.name])
        (h c List.mem_cons_self) hx
      exact ⟨c, List.mem_cons_self, ps, by simp, hp⟩
    · obtain ⟨e, he, hp⟩ := exists_resolve_of_nodesFromAll cs path
        (fun e he ↦ h e (List.mem_cons_of_mem _ he)) hx
      exact ⟨e, List.mem_cons_of_mem _ he, hp⟩

end

theorem mem_nodes_iff (h : root.DistinctTree) :
    (path, c) ∈ root.nodes ↔ root.resolve path = some c := by
  refine ⟨fun hc ↦ ?_, mem_nodes_of_resolve⟩
  obtain ⟨ps, rfl, hp⟩ := exists_resolve_of_nodesFrom root [] h hc
  exact hp

mutual

theorem nodup_paths_nodesFrom : (c : Command) → (path : List String) → c.DistinctTree →
    ((c.nodesFrom path).map (·.1)).Nodup
  | ⟨n, d, fs, os, ps, cs, sf, sl, im, ws, t, tf⟩, path, h => by
    have hrest : ((nodesFromAll path cs).map (·.1)).Nodup :=
      nodup_paths_nodesFromAll cs path h.here.subcommands fun c hc ↦ h.of_mem hc
    rw [nodesFrom, List.map_cons, List.nodup_cons]
    refine ⟨fun hmem ↦ ?_, hrest⟩
    obtain ⟨x, hx, hpath⟩ := List.mem_map.1 hmem
    obtain ⟨c, -, qs, hq, -⟩ := exists_resolve_of_nodesFromAll cs path (fun c hc ↦ h.of_mem hc) hx
    simp [hq] at hpath

theorem nodup_paths_nodesFromAll : (cs : List Command) → (path : List String) →
    (cs.map (·.name)).Nodup → (∀ c ∈ cs, c.DistinctTree) → ((nodesFromAll path cs).map (·.1)).Nodup
  | [], _, _, _ => List.nodup_nil
  | c :: cs, path, hn, h => by
    obtain ⟨hnew, hn⟩ := List.nodup_cons.1 hn
    have hc := h c List.mem_cons_self
    have hcs : ∀ e ∈ cs, e.DistinctTree := fun e he ↦ h e (List.mem_cons_of_mem _ he)
    rw [nodesFromAll, List.map_append, List.nodup_append]
    refine ⟨nodup_paths_nodesFrom c _ hc, nodup_paths_nodesFromAll cs path hn hcs, ?_⟩
    intro p hp q hq hpq
    obtain ⟨x, hx, rfl⟩ := List.mem_map.1 hp
    obtain ⟨y, hy, rfl⟩ := List.mem_map.1 hq
    obtain ⟨ps, hx, -⟩ := exists_resolve_of_nodesFrom c (path ++ [c.name]) hc hx
    obtain ⟨e, he, qs, hy, -⟩ := exists_resolve_of_nodesFromAll cs path hcs hy
    rw [hx, hy, List.append_assoc, List.append_cancel_left_eq, List.singleton_append] at hpq
    exact hnew (List.mem_map.2 ⟨e, he, (List.cons.inj hpq).1.symm⟩)

end

theorem nodup_paths (h : root.DistinctTree) : (root.nodes.map (·.1)).Nodup :=
  nodup_paths_nodesFrom root [] h

theorem DistinctTree.of_subcommands (hc : c.Distinct) (hs : ∀ d ∈ c.subcommands, d.DistinctTree) :
    c.DistinctTree := by
  rintro (_ | ⟨p, ps⟩) x hx
  · obtain rfl := Option.some_inj.1 hx
    exact hc
  · obtain ⟨d, hd, hx⟩ := Option.bind_eq_some_iff.1 hx
    exact hs d (List.mem_of_find?_eq_some hd) ps x hx

theorem Distinct.addArg (h : c.Distinct) (a : Arg) : (c.addArg a).Distinct where
  subcommands := by rw [subcommands_addArg]; exact h.subcommands
  args := by
    have hflags : (c.addArg a).flags = without a.name c.flags ++ if a.kind = .flag then [a] else [] :=
      declared_addArg c a .flag
    have hoptions : (c.addArg a).options =
        without a.name c.options ++ if a.kind = .option then [a] else [] :=
      declared_addArg c a .option
    have hkept : (((without a.name c.flags).map (·.name)) ++
        (without a.name c.options).map (·.name)).Nodup := by
      rw [← List.map_append, without, without, ← List.filter_append]
      exact h.args.sublist (List.filter_sublist.map _)
    have hnew (as : List Arg) : a.name ∉ (without a.name as).map (·.name) := by
      simp [without]
    rw [Command.args, hflags, hoptions, List.map_append, List.map_append, List.map_append]
    cases a.kind with
    | positional => simpa using hkept
    | option =>
      simp only [reduceCtorEq, if_false, if_true, List.map_nil, List.append_nil, ← List.append_assoc]
      refine List.nodup_append.2 ⟨hkept, List.nodup_singleton _, ?_⟩
      grind
    | flag =>
      simp only [reduceCtorEq, if_false, if_true, List.map_nil, List.append_nil]
      grind [List.nodup_append]

theorem DistinctTree.addArg (h : c.DistinctTree) (a : Arg) : (c.addArg a).DistinctTree := by
  refine .of_subcommands (h.here.addArg a) fun d hd ↦ ?_
  rw [subcommands_addArg] at hd
  exact h.of_mem hd

theorem Distinct.addSubcommand (h : c.Distinct) (child : Command) :
    (c.addSubcommand child).Distinct where
  subcommands := nodup_names_putChild child h.subcommands
  args := h.args

theorem DistinctTree.addSubcommand (h : c.DistinctTree) (hc : child.DistinctTree) :
    (c.addSubcommand child).DistinctTree := by
  refine .of_subcommands (h.here.addSubcommand child) fun d hd ↦ ?_
  rcases mem_putChild hd with rfl | hd
  · exact hc
  · exact h.of_mem hd

section modifyAt

variable {f : Command → Command}

theorem name_modifyAt (hn : ∀ c, (f c).name = c.name) (p : List String) (c : Command) :
    (c.modifyAt f p).name = c.name := by
  cases p <;> simp [modifyAt, hn]

theorem child_modifyAt (hn : ∀ c, (f c).name = c.name) {p x : String} {ps : List String} :
    (c.modifyAt f (p :: ps)).child x =
      (c.child x).map fun d ↦ if x = p then d.modifyAt f ps else d := by
  have hx : ((fun d : Command ↦ d.name == x) ∘ fun d ↦ if d.name == p then d.modifyAt f ps else d) =
      fun d ↦ d.name == x := by
    funext d
    by_cases h : d.name = p <;> simp [h, name_modifyAt hn]
  simp only [modifyAt, child, List.find?_map, hx]
  cases hf : c.subcommands.find? (·.name == x) with
  | none => rfl
  | some d =>
    have : d.name = x := by simpa using List.find?_some hf
    simp [this]

theorem resolve_modifyAt_self (hn : ∀ c, (f c).name = c.name) (h : c.resolve path = some d) :
    (c.modifyAt f path).resolve path = some (f d) := by
  induction path generalizing c with
  | nil =>
    obtain rfl := Option.some.inj h
    rfl
  | cons p ps ih =>
    obtain ⟨e, he, hd⟩ := Option.bind_eq_some_iff.1 h
    rw [resolve, child_modifyAt hn, he, Option.map_some, if_pos rfl, Option.bind_some]
    exact ih hd

end modifyAt

end CommandCoverage.Command
