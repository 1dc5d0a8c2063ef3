import CommandCoverage.Proofs.Command.Nodes
import CommandCoverage.Proofs.Coverage.Marks

namespace CommandCoverage

open Command

theorem Arg.Marked.eq {P Q : Prop} {a a' a'' : Arg} (h : a.Marked P a') (h' : a.Marked Q a'')
    (hpq : P ↔ Q) : a' = a'' := by
  have htested : a'.tested = a''.tested := by
    rw [Bool.eq_iff_iff, h.tested, h'.tested, hpq]
  rw [h.same, h'.same, htested]

namespace Command

def SubcommandsApart (root : Command) : Prop :=
  ∀ path c, root.resolve path = some c → (c.subcommands.map (·.name)).Nodup

structure SameMarks (c d : Command) : Prop where
  own : d.own = { c.own with testFiles := d.testFiles }
  children : d.subcommands.map (·.name) = c.subcommands.map (·.name)

def SameTree (c d : Command) : Prop :=
  ∀ path, Option.Rel SameMarks (c.resolve path) (d.resolve path)

def SameNodes : List (List String × Command) → List (List String × Command) → Prop :=
  List.Forall₂ fun x y ↦ x.1 = y.1 ∧ x.2.SameMarks y.2

variable {c c' d d' root tree tree' : Command} {path : List String} {cs ds : List Command}

theorem DistinctTree.subcommandsApart (h : root.DistinctTree) : root.SubcommandsApart := by
  intro path c hc
  exact (h path c hc).subcommands

theorem SubcommandsApart.of_mem (h : c.SubcommandsApart) (hd : d ∈ c.subcommands) :
    d.SubcommandsApart := by
  have hchild := child_of_nodup (h [] c rfl) hd
  intro path x hx
  apply h (d.name :: path) x
  rw [resolve_cons hchild, hx]

theorem SameMarks.name (h : c.SameMarks d) : d.name = c.name := by
  have hname := congrArg Command.name h.own
  exact hname

theorem SameMarks.tested (h : c.SameMarks d) : d.tested = c.tested := by
  have htested := congrArg Command.tested h.own
  exact htested

theorem SameMarks.flags (h : c.SameMarks d) : d.flags = c.flags := by
  have hflags := congrArg Command.flags h.own
  exact hflags

theorem SameMarks.options (h : c.SameMarks d) : d.options = c.options := by
  have hoptions := congrArg Command.options h.own
  exact hoptions

theorem SameTree.here (h : SameTree c d) : c.SameMarks d := by
  have hroot := h []
  simp only [resolve] at hroot
  cases hroot with
  | some hm => exact hm

/-- Subcommands at the same place are the same trees. -/
theorem SameTree.subcommands (h : SameTree c d) (ha : c.SubcommandsApart) :
    List.Forall₂ (fun x y ↦ x.SubcommandsApart ∧ SameTree x y) c.subcommands d.subcommands := by
  have hnames := h.here.children
  have hnodup := ha [] c rfl
  have hlength : c.subcommands.length = d.subcommands.length := by
    have hlengths := congrArg List.length hnames
    simpa using hlengths.symm
  rw [List.forall₂_iff_zip]
  refine ⟨hlength, ?_⟩
  intro x y hxy
  have hx : x ∈ c.subcommands := (List.of_mem_zip hxy).1
  have hy : y ∈ d.subcommands := (List.of_mem_zip hxy).2
  have hname : x.name = y.name := by
    have hzip : ∀ p ∈ c.subcommands.zip d.subcommands, p.1.name = p.2.name := by
      have heq := List.forall₂_eq_eq_eq ▸ hnames.symm
      rw [List.forall₂_map_left_iff, List.forall₂_map_right_iff, List.forall₂_iff_zip] at heq
      intro p hp
      exact heq.2 hp
    exact hzip (x, y) hxy
  have hcx := child_of_nodup hnodup hx
  have hdy := child_of_nodup (hnames ▸ hnodup) hy
  refine ⟨ha.of_mem hx, ?_⟩
  intro path
  have hpath := h (x.name :: path)
  rw [resolve_cons hcx, hname, resolve_cons hdy] at hpath
  exact hpath

mutual

theorem sameNodes_nodesFrom : (c d : Command) → (path : List String) → c.SubcommandsApart →
    SameTree c d → SameNodes (c.nodesFrom path) (d.nodesFrom path)
  | ⟨n, ds, fs, os, ps, cs, sf, sl, im, ws, t, tf⟩, d, path, ha, h => by
    have hchildren := h.subcommands ha
    rw [nodesFrom_eq path d, nodesFrom]
    exact .cons ⟨rfl, h.here⟩ (sameNodes_nodesFromAll cs d.subcommands path hchildren)

theorem sameNodes_nodesFromAll : (cs ds : List Command) → (path : List String) →
    List.Forall₂ (fun x y ↦ x.SubcommandsApart ∧ SameTree x y) cs ds →
      SameNodes (nodesFromAll path cs) (nodesFromAll path ds)
  | [], _, path, h => by
    cases h
    exact .nil
  | c :: cs, _, path, h => by
    cases h with
    | @cons _ d _ ds hfirst hrest =>
      have hname : d.name = c.name := hfirst.2.here.name
      rw [nodesFromAll, nodesFromAll, hname]
      exact List.rel_append (sameNodes_nodesFrom c d _ hfirst.1 hfirst.2)
        (sameNodes_nodesFromAll cs ds path hrest)

end

section marked

variable {files files' : List String} {used used' : ArgTable → String → Prop}

theorem Marked.table_eq (h : c.Marked files used d) (h' : c.Marked files' used' d')
    (hu : ∀ t n, used t n ↔ used' t n) (t : ArgTable) : d.table t = d'.table t := by
  have has := h.args t
  have has' := h'.args t
  generalize c.table t = as, d.table t = bs, d'.table t = bs' at has has'
  induction has generalizing bs' with
  | nil =>
    cases has'
    rfl
  | cons ha _ ih =>
    cases has' with
    | cons ha' hrest' => rw [ha.eq ha' (hu t _), ih _ hrest']

theorem Marked.sameMarks (h : c.Marked files used d) (h' : c.Marked files' used' d')
    (hf : files ≠ [] ↔ files' ≠ []) (hu : ∀ t n, used t n ↔ used' t n) : d.SameMarks d' := by
  have htested : d.tested = d'.tested := by
    rw [Bool.eq_iff_iff, h.tested, h'.tested, hf]
  have hflags : d.flags = d'.flags := h.table_eq h' hu .flags
  have hoptions : d.options = d'.options := h.table_eq h' hu .options
  refine ⟨?_, h'.children.trans h.children.symm⟩
  rw [h.same, h'.same, htested, hflags, hoptions]

end marked

variable {files files' : List String → List String}
  {used used' : List String → ArgTable → String → Prop}

theorem MarkedTree.sameTree (h : MarkedTree files used root tree)
    (h' : MarkedTree files' used' root tree') (hf : ∀ q, files q ≠ [] ↔ files' q ≠ [])
    (hu : ∀ q t n, used q t n ↔ used' q t n) : SameTree tree tree' := by
  intro q
  have hq := h q
  have hq' := h' q
  generalize root.resolve q = x, tree.resolve q = y, tree'.resolve q = z at hq hq'
  cases hq with
  | none =>
    cases hq'
    exact .none
  | some hc =>
    cases hq' with
    | some hc' => exact .some (hc.sameMarks hc' (hf q) (hu q))

theorem MarkedTree.subcommandsApart (h : MarkedTree files used root tree)
    (hr : root.SubcommandsApart) : tree.SubcommandsApart := by
  intro q c hc
  have hq := h q
  rw [hc] at hq
  generalize hx : root.resolve q = x at hq
  cases hq with
  | some hm =>
    rw [hm.children]
    exact hr q _ hx

end Command

theorem Records.ofTree_eq {tree tree' : Command} (h : SameNodes tree.nodes tree'.nodes) :
    Records.ofTree tree = Records.ofTree tree' := by
  unfold Records.ofTree
  generalize ({} : Records) = r
  generalize tree.nodes = ns, tree'.nodes = ns' at h ⊢
  induction h generalizing r with
  | nil => rfl
  | @cons x y _ _ hxy _ ih =>
    obtain ⟨path, c⟩ := x
    obtain ⟨path', d⟩ := y
    obtain ⟨rfl, hmarks⟩ := hxy
    have hadd : r.addCommand path c = r.addCommand path d := by
      rw [Records.addCommand, Records.addCommand, hmarks.tested, hmarks.flags, hmarks.options]
    rw [List.foldl_cons, List.foldl_cons]
    dsimp only
    rw [hadd]
    exact ih _

theorem Untested.ofTree_eq {tree tree' : Command} (hname : tree.name = tree'.name)
    (h : SameNodes tree.nodes tree'.nodes) : Untested.ofTree tree = Untested.ofTree tree' := by
  unfold Untested.ofTree
  generalize tree.nodes = ns, tree'.nodes = ns' at h ⊢
  induction h with
  | nil => rfl
  | @cons x y _ _ hxy _ ih =>
    obtain ⟨path, c⟩ := x
    obtain ⟨path', d⟩ := y
    obtain ⟨rfl, hmarks⟩ := hxy
    have hfull : tree.fullName path = tree'.fullName path := by
      rw [Command.fullName, Command.fullName, hname]
    have hown : ofCommand tree path c = ofCommand tree' path d := by
      rw [ofCommand, ofCommand, hfull, hmarks.tested, hmarks.flags, hmarks.options]
    rw [List.flatMap_cons, List.flatMap_cons, ih]
    exact congrArg (· ++ _) hown

namespace Coverage

/-- Every invocation of the first list has one in the second with the same path, flags and
options. -/
def UsesOf (is js : List Invocation) : Prop :=
  ∀ i ∈ is, ∃ j ∈ js, j.path = i.path ∧ j.flags = i.flags ∧ j.options = i.options

variable {root : Command} {is js : List Invocation}

theorem UsesOf.filesAt_ne_nil (h : UsesOf is js) {path : List String} (hf : filesAt is path ≠ []) :
    filesAt js path ≠ [] := by
  obtain ⟨file, hfile⟩ := List.exists_mem_of_ne_nil _ hf
  obtain ⟨i, hi, rfl⟩ := List.mem_map.1 hfile
  obtain ⟨himem, hipath⟩ := List.mem_filter.1 hi
  obtain ⟨j, hj, hpath, -⟩ := h i himem
  have hjpath : j.path = path := hpath.trans (of_decide_eq_true hipath)
  have hmem : j.file ∈ filesAt js path :=
    List.mem_map_of_mem (List.mem_filter.2 ⟨hj, decide_eq_true hjpath⟩)
  exact List.ne_nil_of_mem hmem

theorem UsesOf.uses (h : UsesOf is js) {path : List String} {t : ArgTable} {n : String}
    (hu : Uses root is path t n) : Uses root js path t n := by
  obtain ⟨i, hi, name, hname, a, ha, rfl⟩ := hu
  obtain ⟨j, hj, hpath, hflags, hoptions⟩ := h i hi
  rw [← hflags, ← hoptions] at hname
  rw [← hpath] at ha
  exact ⟨j, hj, name, hname, a, ha, rfl⟩

structure Same (c d : Coverage) : Prop where
  nodes : SameNodes c.tree.nodes d.tree.nodes
  records : c.records = d.records
  untested : Untested.ofTree c.tree = Untested.ofTree d.tree

theorem compute_same (hroot : root.SubcommandsApart) (h : UsesOf is js) (h' : UsesOf js is) :
    (compute root is).Same (compute root js) := by
  have hmarked := compute_markedTree root is
  have hmarked' := compute_markedTree root js
  have htree : SameTree (compute root is).tree (compute root js).tree := by
    apply hmarked.sameTree hmarked'
    · intro path
      exact ⟨h.filesAt_ne_nil, h'.filesAt_ne_nil⟩
    · intro path t n
      exact ⟨h.uses, h'.uses⟩
  have hnodes := sameNodes_nodesFrom _ _ [] (hmarked.subcommandsApart hroot) htree
  exact ⟨hnodes, Records.ofTree_eq hnodes, Untested.ofTree_eq htree.here.name.symm hnodes⟩

end Coverage

end CommandCoverage
