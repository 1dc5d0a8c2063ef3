import CommandCoverage.Proofs.Command.Nodes
import CommandCoverage.Proofs.Coverage.Counts
import CommandCoverage.Proofs.Invocation.Agreement
import CommandCoverage.Proofs.Invocation.Spelling
import CommandCoverage.Proofs.Report.Samples

namespace CommandCoverage

open Command Invocation

namespace Command

/-- The names of a command can be written in tokens: none of a subcommand reads as a flag, and none
of a flag or option ends early. -/
structure Writable (c : Command) : Prop where
  subcommands : ∀ d ∈ c.subcommands, startsWithDash d.name = false
  args : ∀ a ∈ c.args, a.name ≠ "" ∧ '=' ∉ a.name.toList

def WritableTree (root : Command) : Prop := ∀ path c, root.resolve path = some c → c.Writable

variable {c d root tree : Command} {path : List String} {t : ArgTable} {a : Arg}
  {files : List String → List String} {used : List String → ArgTable → String → Prop}

theorem WritableTree.of_child {p : String} (h : c.WritableTree) (hd : c.child p = some d) :
    d.WritableTree := by
  intro path x hx
  exact h (p :: path) x (by rw [resolve_cons hd, hx])

theorem WritableTree.of_subcommands (hc : c.Writable) (hs : ∀ d ∈ c.subcommands, d.WritableTree) :
    c.WritableTree := by
  rintro (_ | ⟨p, ps⟩) x hx
  · obtain rfl := Option.some_inj.1 hx
    exact hc
  · obtain ⟨d, hd, hx⟩ := Option.bind_eq_some_iff.1 hx
    exact hs d (List.mem_of_find?_eq_some hd) ps x hx

theorem mem_args_of_table (h : a ∈ c.table t) : a ∈ c.args := by
  cases t
  · exact List.mem_append_left _ h
  · exact List.mem_append_right _ h

theorem exists_finds_own (hd : c.Distinct) (hc : root.resolve path = some c) (ha : a ∈ c.table t) :
    ∃ b, root.Finds path a.name path t b ∧ b.name = a.name := by
  obtain ⟨u, b, hm, hname, hu⟩ := exists_means_name ha
  have htable : u = t := by
    rcases hu with rfl | rfl
    · rfl
    · cases t with
      | flags => rfl
      | options =>
        have hargs := hd.args
        rw [args, List.map_append] at hargs
        have hflag : a.name ∈ c.flags.map (·.name) := hname ▸ List.mem_map_of_mem hm.mem
        exact absurd (List.mem_map_of_mem ha) (List.disjoint_of_nodup_append hargs hflag)
  subst htable
  refine ⟨b, ⟨by simp [hc], List.prefix_rfl, ⟨c, hc, hm⟩, fun nearer hle hne hge ↦ ?_⟩, hname⟩
  exact absurd (hle.eq_of_length (le_antisymm hle.length_le hge.length_le)).symm hne

end Command

namespace Invocation

variable {c d root : Command} {path ts : List String} {t name : String}
  {lookup : String → Option Arg}

theorem splitFrom_path (hw : c.WritableTree) (hd : c.resolve path = some d)
    (ht : startsWithDash t = true) (l : Leading) (hl : l.positionals = []) :
    splitFrom (some c) l (path ++ t :: ts) =
      { l with path := l.path ++ path, consumed := l.consumed + path.length } := by
  induction path generalizing c l with
  | nil =>
    rw [List.nil_append, splitFrom.eq_def]
    simp [ht]
  | cons p ps ih =>
    obtain ⟨e, he, hd⟩ := Option.bind_eq_some_iff.1 hd
    have hname : e.name = p := by simpa using List.find?_some he
    have hdash : startsWithDash p = false :=
      hname ▸ (hw [] c rfl).subcommands e (List.mem_of_find?_eq_some he)
    rw [List.cons_append, splitFrom.eq_def]
    simp only [hdash, hl, Option.bind_some, he, List.isEmpty_nil]
    rw [if_neg (by simp), ih (hw.of_child he) hd _ rfl]
    simp only [List.append_assoc, List.singleton_append, List.length_cons, Leading.mk.injEq,
      true_and]
    omega

theorem startsWithDash_dashes (name : String) : startsWithDash ("--" ++ name) = true := by
  simp [startsWithDash]

theorem name_mem_readTokens (hl : (lookup name).isSome) (hn : name ≠ "") (he : '=' ∉ name.toList)
    (r : Request) (ts : List String) :
    name ∈ (readTokens lookup 0 r (("--" ++ name) :: ts)).names := by
  have hasks := asksFor_long hn he (positiveName_of_isSome hl)
  rw [hasks.readTokens_eq, readTokens_eq_append]
  exact List.mem_append_left _ (List.mem_append_right _ (List.mem_singleton_self name))

theorem splitPath_dashes (hw : root.WritableTree) (hd : root.resolve path = some d) :
    splitPath root (path ++ ("--" ++ name) :: ts) = { path, consumed := path.length } := by
  rw [splitPath, splitFrom_path hw hd (startsWithDash_dashes name) _ rfl]
  simp

theorem path_classify_dashes (hw : root.WritableTree) (hd : root.resolve path = some d)
    (name : String) (ts : List String) :
    (classify root (path ++ ("--" ++ name) :: ts)).path = path := by
  rw [classify, splitPath_dashes hw hd]

theorem uses_dashes (hd : root.DistinctTree) (hw : root.WritableTree)
    (hc : root.resolve path = some c) {u : ArgTable} {a : Arg} (ha : a ∈ c.table u) (file : String)
    (line : Nat) (ts : List String) : Coverage.Uses root
      [ofTokens root file line (path ++ ("--" ++ a.name) :: ts)] path u a.name := by
  obtain ⟨b, hb, hname⟩ := exists_finds_own (hd path c hc) hc ha
  obtain ⟨hne, heq⟩ := (hw path c hc).args a (mem_args_of_table ha)
  have hpath := path_classify_dashes hw hc a.name ts
  generalize htokens : path ++ ("--" ++ a.name) :: ts = tokens at hpath
  have hresolve : (root.resolve (classify root tokens).path).isSome := by simp [hpath, hc]
  have hmeaning : meaning root tokens a.name = some b := by
    rw [meaning_eq_some_iff hresolve, hpath]
    exact ⟨path, u, hb⟩
  have hasked : a.name ∈ (request root tokens).names := by
    rw [request, ← htokens, splitPath_dashes hw hc, List.drop_left, htokens]
    exact name_mem_readTokens (by simp [hmeaning]) hne heq _ ts
  have hpassed : a.name ∈ (ofTokens root file line tokens).flags ∨
      a.name ∈ (ofTokens root file line tokens).options :=
    mem_ofTokens_iff.2 ⟨a.name, hasked, .inl ⟨b, hmeaning, hname⟩⟩
  have hfinds : root.Finds (ofTokens root file line tokens).path a.name path u b := by
    have hsame : (ofTokens root file line tokens).path = (classify root tokens).path := rfl
    rwa [hsame, hpath]
  exact ⟨_, List.mem_singleton_self _, a.name, hpassed, b, hfinds, hname⟩

end Invocation

namespace Untested

variable {c root : Command} {path : List String} {t : ArgTable} {a : Arg}

theorem exists_command_item (h : (path, c) ∈ root.nodes) (hc : c.tested = false) :
    ∃ u ∈ ofTree root, u.tokens = .ok (path ++ ["--help"]) := by
  let u : Untested :=
    { kind := if path.isEmpty then .command else .subcommand, fullName := root.fullName path, path }
  refine ⟨u, List.mem_flatMap.2 ⟨(path, c), h, ?_⟩, rfl⟩
  simp [ofCommand, hc, u]

theorem exists_arg_item (h : (path, c) ∈ root.nodes) (ha : a ∈ c.table t) (hu : a.tested = false) :
    ∃ u ∈ ofTree root, ∀ tokens, u.tokens = .ok tokens →
      ∃ ts, tokens = path ++ ("--" ++ a.name) :: ts := by
  have hitem : ∃ u ∈ ofCommand root path c, u.path = path ∧ u.arg = some a := by
    cases t with
    | flags =>
      refine ⟨{ kind := .flag, fullName := root.fullName path, path, arg := some a }, ?_, rfl, rfl⟩
      exact List.mem_append_left _ (List.mem_append_right _
        (List.mem_map_of_mem (List.mem_filter.2 ⟨ha, by simp [hu]⟩)))
    | options =>
      refine ⟨{ kind := .option, fullName := root.fullName path, path, arg := some a }, ?_, rfl, rfl⟩
      exact List.mem_append_right _
        (List.mem_map_of_mem (List.mem_filter.2 ⟨ha, by simp [hu]⟩))
  obtain ⟨u, hmem, hpath, harg⟩ := hitem
  refine ⟨u, List.mem_flatMap.2 ⟨(path, c), h, hmem⟩, fun tokens htokens ↦ ?_⟩
  simp only [Untested.tokens, hpath, harg] at htokens
  split at htokens
  · exact ⟨[], (Except.ok.inj htokens).symm⟩
  · cases hs : a.sample with
    | error f => simp [hs, Except.map] at htokens
    | ok value =>
      rw [hs] at htokens
      exact ⟨[value], (Except.ok.inj htokens).symm⟩

theorem ofTree_eq_nil (h : ∀ path c, (path, c) ∈ root.nodes →
    c.tested = true ∧ ∀ t, ∀ a ∈ c.table t, a.tested = true) : ofTree root = [] := by
  refine List.flatMap_eq_nil_iff.2 fun ⟨path, c⟩ hmem ↦ ?_
  obtain ⟨hc, ha⟩ := h path c hmem
  have hnone (u : ArgTable) : (c.table u).filter (!·.tested) = [] :=
    List.filter_eq_nil_iff.2 fun a hmem ↦ by simp [ha u a hmem]
  have hflags : c.flags.filter (!·.tested) = [] := hnone .flags
  have hoptions : c.options.filter (!·.tested) = [] := hnone .options
  simp [ofCommand, hc, hflags, hoptions]

end Untested

namespace Coverage

variable {c' root : Command} {is js : List Invocation} {path : List String} {t : ArgTable}
  {n : String}

/-- The invocations made from the tokens that are recommended for what some invocations leave
untested. -/
def recommended (root : Command) (is : List Invocation) (file : Untested → String)
    (line : Untested → Nat) : Except Failure (List Invocation) :=
  (Untested.ofTree (compute root is).tree).mapM fun u ↦
    u.tokens.map (ofTokens root (file u) (line u))

/-- There is a run to try for every untested item, and with all of them nothing is untested. -/
def Completed (root : Command) (is : List Invocation) (file : Untested → String)
    (line : Untested → Nat) : Prop :=
  ∃ js, recommended root is file line = .ok js ∧
    Untested.ofTree (compute root (is ++ js)).tree = [] ∧
      (compute root (is ++ js)).records.overall.tested =
        (compute root (is ++ js)).records.overall.total

theorem Uses.mono (h : Uses root is path t n) (hs : is ⊆ js) : Uses root js path t n := by
  obtain ⟨i, hi, hn⟩ := h
  exact ⟨i, hs hi, hn⟩

theorem filesAt_ne_nil {i : Invocation} (hi : i ∈ is) (hp : i.path = path) :
    filesAt is path ≠ [] := by
  have hmem : i.file ∈ filesAt is path :=
    List.mem_map_of_mem (List.mem_filter.2 ⟨hi, by simpa using hp⟩)
  exact List.ne_nil_of_mem hmem

variable {file : Untested → String} {line : Untested → Nat}

theorem exists_recommended_iff : (∃ js, recommended root is file line = .ok js) ↔
    ∀ u ∈ Untested.ofTree (compute root is).tree, ¬u.Overlong := by
  unfold recommended
  rw [exists_mapM_eq_ok_iff]
  refine forall₂_congr fun u _ ↦ ?_
  rw [← Untested.exists_tokens_iff]
  cases u.tokens <;> simp [Except.map]

theorem mem_of_recommended (h : recommended root is file line = .ok js) {u : Untested}
    (hu : u ∈ Untested.ofTree (compute root is).tree) :
    ∃ tokens, u.tokens = .ok tokens ∧ ofTokens root (file u) (line u) tokens ∈ js := by
  obtain ⟨j, hj, hrun⟩ := exists_of_forall₂ (mapM_eq_ok_iff.1 h) hu
  cases htokens : u.tokens with
  | error f => simp [htokens, Except.map] at hrun
  | ok tokens =>
    rw [htokens] at hrun
    exact ⟨tokens, rfl, Except.ok.inj hrun ▸ hj⟩

theorem tested_of_recommended (hw : root.WritableTree)
    (hjs : recommended root is file line = .ok js)
    (hc : (compute root (is ++ js)).tree.resolve path = some c') : c'.tested = true := by
  have hafter := compute_markedTree root (is ++ js) path
  have hbefore := compute_markedTree root is path
  rw [hc] at hafter
  generalize hx : root.resolve path = x at hafter hbefore
  generalize hy : (compute root is).tree.resolve path = y at hbefore
  cases hafter with
  | @some c _ hafter =>
    cases hbefore with
    | @some _ c₀ hbefore =>
      rw [hafter.tested]
      cases htested : c₀.tested with
      | true =>
        refine (hbefore.tested.1 htested).imp_right fun hfiles ↦ ?_
        rw [filesAt, List.filter_append, List.map_append]
        exact List.append_ne_nil_of_left_ne_nil hfiles _
      | false =>
        have hnode := mem_nodes_of_resolve hy
        obtain ⟨u, hu, htokens⟩ := Untested.exists_command_item hnode htested
        obtain ⟨tokens, htokens', hmem⟩ := mem_of_recommended hjs hu
        obtain rfl := Except.ok.inj (htokens.symm.trans htokens')
        refine .inr (filesAt_ne_nil (List.mem_append_right _ hmem) ?_)
        exact path_classify_dashes hw hx "help" []

theorem arg_tested_of_recommended (hd : root.DistinctTree) (hw : root.WritableTree)
    (hjs : recommended root is file line = .ok js)
    (hc : (compute root (is ++ js)).tree.resolve path = some c') {a' : Arg}
    (ha : a' ∈ c'.table t) : a'.tested = true := by
  have hafter := compute_markedTree root (is ++ js) path
  have hbefore := compute_markedTree root is path
  rw [hc] at hafter
  generalize hx : root.resolve path = x at hafter hbefore
  generalize hy : (compute root is).tree.resolve path = y at hbefore
  cases hafter with
  | @some c _ hafter =>
    cases hbefore with
    | @some _ c₀ hbefore =>
      obtain ⟨a, hmem, hmarked⟩ := exists_of_forall₂ (hafter.args t).flip ha
      obtain ⟨a₀, hmem₀, hmarked₀⟩ := exists_of_forall₂ (hbefore.args t) hmem
      rw [hmarked.tested]
      cases htested : a₀.tested with
      | true =>
        exact (hmarked₀.tested.1 htested).imp_right fun hu ↦ hu.mono (List.subset_append_left ..)
      | false =>
        have hnode := mem_nodes_of_resolve hy
        obtain ⟨u, hu, hstarts⟩ := Untested.exists_arg_item hnode hmem₀ htested
        obtain ⟨tokens, htokens, hmemjs⟩ := mem_of_recommended hjs hu
        obtain ⟨ts, rfl⟩ := hstarts tokens htokens
        have huses := uses_dashes hd hw hx hmem (file u) (line u) ts
        refine .inr (huses.mono ?_)
        intro i hi
        obtain rfl := List.mem_singleton.1 hi
        exact List.mem_append_right _ (hmarked₀.name ▸ hmemjs)

/-- After the runs that are recommended no item is left untested, and everything is counted as
tested. -/
theorem recommended_complete (hd : root.DistinctTree) (hw : root.WritableTree)
    (hjs : recommended root is file line = .ok js) :
    Untested.ofTree (compute root (is ++ js)).tree = [] ∧
      (compute root (is ++ js)).records.overall.tested =
        (compute root (is ++ js)).records.overall.total := by
  have hdistinct := (compute_markedTree root (is ++ js)).distinctTree hd
  have hall : ∀ path c, (path, c) ∈ (compute root (is ++ js)).tree.nodes →
      c.tested = true ∧ ∀ t, ∀ a ∈ c.table t, a.tested = true := by
    intro path c hmem
    have hc := (mem_nodes_iff hdistinct).1 hmem
    exact ⟨tested_of_recommended hw hjs hc, fun t a ha ↦ arg_tested_of_recommended hd hw hjs hc ha⟩
  have hnone := Untested.ofTree_eq_nil hall
  have hcounts := Untested.tested_add_length (compute root (is ++ js)).tree
  rw [hnone] at hcounts
  exact ⟨hnone, hcounts⟩

/-- Following the recommendations covers everything, unless an option is untested whose default has
too many digits to be written: then nothing is recommended at all. -/
theorem completed_iff (hd : root.DistinctTree) (hw : root.WritableTree) (is : List Invocation)
    (file : Untested → String) (line : Untested → Nat) :
    Completed root is file line ↔
      ∀ u ∈ Untested.ofTree (compute root is).tree, ¬u.Overlong := by
  rw [← exists_recommended_iff]
  constructor
  · rintro ⟨js, hjs, -⟩
    exact ⟨js, hjs⟩
  · rintro ⟨js, hjs⟩
    exact ⟨js, hjs, recommended_complete hd hw hjs⟩

/-- The subcommand takes positionals, and its arguments hide the alias of a flag of the root or read
like a negation. -/
def buildTree : Command where
  name := "cli"
  flags := [{ name := "verbose", type := "boolean", aliases := ["v"] }]
  subcommands := [
    { name := "build"
      flags := [{ name := "no-color", type := "boolean" }]
      options := [{ name := "v" }, { name := "out", default := .text "--help" }]
      positionals := [{ name := "entry", type := "positional" }] }]

theorem distinctTree_buildTree : buildTree.DistinctTree := by
  have hleaves : ∀ d ∈ buildTree.subcommands, d.subcommands = [] := by simp [buildTree]
  have hargs : ∀ d ∈ buildTree.subcommands, (d.args.map (·.name)).Nodup := by
    simp [buildTree, args]
  refine .of_subcommands ⟨by simp [buildTree], by simp [buildTree, args]⟩ fun d hd ↦ ?_
  refine .of_subcommands ⟨by simp [hleaves d hd], hargs d hd⟩ ?_
  simp [hleaves d hd]

theorem writableTree_buildTree : buildTree.WritableTree := by
  have hleaves : ∀ d ∈ buildTree.subcommands, d.subcommands = [] := by simp [buildTree]
  have hargs : ∀ d ∈ buildTree.subcommands, ∀ a ∈ d.args, a.name ≠ "" ∧ '=' ∉ a.name.toList := by
    simp [buildTree, args]
  refine .of_subcommands ⟨?_, ?_⟩ fun d hd ↦ .of_subcommands ⟨?_, hargs d hd⟩ ?_
  · simp [buildTree, startsWithDash]
  · simp [buildTree, args]
  · simp [hleaves d hd]
  · simp [hleaves d hd]

theorem completed_iff_buildTree :
    buildTree.DistinctTree ∧ buildTree.WritableTree ∧
      Completed buildTree [] (fun _ ↦ "test/a.mjs") fun _ ↦ 1 := by
  have hshort : ∀ u ∈ Untested.ofTree (compute buildTree []).tree, ¬u.Overlong := by
    have hdefaults : ((Untested.ofTree buildTree).filterMap (·.arg)).map (·.default) =
        [.null, .null, .null, .text "--help"] := rfl
    rintro u hu ⟨a, ha, -, n, hn, -⟩
    have hmem := List.mem_map_of_mem (f := Arg.default) (List.mem_filterMap.2 ⟨u, hu, ha⟩)
    simp [compute, hdefaults, hn] at hmem
  exact ⟨distinctTree_buildTree, writableTree_buildTree,
    (completed_iff distinctTree_buildTree writableTree_buildTree [] _ _).2 hshort⟩

theorem distinctTree_limitTree (n : Int) : (limitTree n).DistinctTree :=
  .of_subcommands ⟨by simp [limitTree], by simp [limitTree, args]⟩ (by simp [limitTree])

theorem writableTree_limitTree (n : Int) : (limitTree n).WritableTree :=
  .of_subcommands ⟨by simp [limitTree], by simp [limitTree, args]⟩ (by simp [limitTree])

theorem exists_not_completed : overlongTree.DistinctTree ∧ overlongTree.WritableTree ∧
    ∀ file line, ¬Completed overlongTree [] file line := by
  refine ⟨distinctTree_limitTree _, writableTree_limitTree _, ?_⟩
  intro file line hc
  obtain ⟨js, hjs, -⟩ := hc
  obtain ⟨u, hu, ho⟩ := exists_overlong
  exact exists_recommended_iff.1 ⟨js, hjs⟩ u hu ho

end Coverage

end CommandCoverage
