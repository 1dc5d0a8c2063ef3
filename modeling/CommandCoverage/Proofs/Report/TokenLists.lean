import CommandCoverage.Proofs.Coverage.Dependence
import CommandCoverage.Proofs.Invocation.Completeness
import CommandCoverage.Proofs.Report.Completion

namespace CommandCoverage

open Script Node

namespace Workspace

def Parses (w : Workspace) (cached : Bool) (path : String) : Prop :=
  w.keyFailure? cached path = none ∧ ∃ source tree,
    w.files.read w.maxFileSize path = .ok source ∧ parseFile path source.content = some tree

def Runs (w : Workspace) (runners : List String) (files : List String) (tokens : List String) :
    Prop :=
  ∃ path ∈ files, ∃ line, w.RunsAt runners path line tokens

end Workspace

variable {w w' : Workspace} {s s' : Search} {root : Command} {workers workers' : Nat}
  {σ σ' : Session} {files files' : List String} {f f' : Finding} {c d : Coverage} {cached : Bool}

def Finding.Runs (f : Finding) (w : Workspace) (s : Search) (root : Command)
    (files : List String) : Prop :=
  ∀ i, i ∈ f.invocations ↔ ∃ path ∈ files, ∃ line tokens,
    w.RunsAt s.runners path line tokens ∧ i = .ofTokens root path line tokens

theorem exists_found_runs (hlist : w.files.listFiles s.selection s.directory = .ok files)
    (hparse : ∀ path ∈ files, w.Parses cached path) :
    ∃ f, w.found cached s root = .ok f ∧ f.Runs w s root files := by
  have hpasses : ∀ path ∈ files, w.Passes cached s path := by
    intro path hpath
    obtain ⟨hk, source, tree, hr, hp⟩ := hparse path hpath
    exact ⟨source, hr, hk, .inr ⟨tree, hp⟩⟩
  obtain ⟨found, items, hfound, hitems, hcollects⟩ := @exists_collects w s root files _ hpasses
  refine ⟨.ofFiles found, ?_, ?_⟩
  · rw [found_eq_map hlist, hfound]
    rfl
  · intro i
    rw [← hitems.mem_iff, ← hcollects.invocations]
    exact List.mem_mergeSort

theorem Finding.Runs.usesOf (h : f.Runs w s root files) (h' : f'.Runs w' s' root files')
    (htokens : ∀ tokens, w.Runs s.runners files tokens → w'.Runs s'.runners files' tokens) :
    Coverage.UsesOf f.invocations f'.invocations := by
  intro i hi
  obtain ⟨path, hpath, line, tokens, hrun, rfl⟩ := (h i).1 hi
  obtain ⟨path', hpath', line', hrun'⟩ := htokens tokens ⟨path, hpath, line, hrun⟩
  exact ⟨.ofTokens root path' line' tokens,
    (h' _).2 ⟨path', hpath', line', tokens, hrun', rfl⟩, rfl, rfl, rfl⟩

theorem Recommendation.ofCoverage_eq (h : c.Same d) (g : Goals) :
    Recommendation.ofCoverage g c = Recommendation.ofCoverage g d := by
  unfold Recommendation.ofCoverage Recommendation.found
  rw [h.untested, h.records]

/-- Two searches that find the same token lists lead to the same coverage and to the same
recommendations. -/
theorem coverage_eq_of_runs (hroot : root.SubcommandsApart) (hcache : w.Trusts σ.cache)
    (hcache' : w'.Trusts σ'.cache)
    (hlist : w.files.listFiles s.selection s.directory = .ok files)
    (hlist' : w'.files.listFiles s'.selection s'.directory = .ok files')
    (hparse : ∀ path ∈ files, w.Parses σ.cache.enabled path)
    (hparse' : ∀ path ∈ files', w'.Parses σ'.cache.enabled path)
    (htokens : ∀ tokens, w.Runs s.runners files tokens ↔ w'.Runs s'.runners files' tokens) :
    ∃ f f', (∀ r, Searches w s root workers σ r ↔ r = .ok f) ∧
      (∀ r, Searches w' s' root workers' σ' r ↔ r = .ok f') ∧
      (Coverage.compute root f.invocations).Same (Coverage.compute root f'.invocations) ∧
      ∀ g p, (Recommendation.ofCoverage g (Coverage.compute root f.invocations)).map
          (Recommendation.chosen p) =
        (Recommendation.ofCoverage g (Coverage.compute root f'.invocations)).map
          (Recommendation.chosen p) := by
  obtain ⟨f, hfound, hruns⟩ := @exists_found_runs w s root files _ hlist hparse
  obtain ⟨f', hfound', hruns'⟩ := @exists_found_runs w' s' root files' _ hlist' hparse'
  have huses := hruns.usesOf hruns' fun tokens ↦ (htokens tokens).1
  have huses' := hruns'.usesOf hruns fun tokens ↦ (htokens tokens).2
  have hsame := Coverage.compute_same hroot huses huses'
  refine ⟨f, f', ?_, ?_, hsame, ?_⟩
  · intro r
    rw [searches_iff hcache, hfound]
  · intro r
    rw [searches_iff hcache', hfound']
  · intro g p
    rw [Recommendation.ofCoverage_eq hsame]

section witness

def tokenLists (runners : List String) (tree : Node) : List (List String) :=
  (FileFinding.runnerCalls runners tree).filterMap fun call ↦ (tokenArray call).bind tokensOf

theorem mem_tokenLists {runners : List String} {tree : Node} {tokens : List String} :
    tokens ∈ tokenLists runners tree ↔ ∃ call ∈ tree.walk, ∃ array,
      call.CallsRunner runners array ∧ array.Spells tokens := by
  unfold tokenLists FileFinding.runnerCalls
  simp only [List.mem_filterMap, List.mem_filter, Bool.and_eq_true, beq_iff_eq, Option.any_eq_true,
    List.contains_iff_mem, Option.bind_eq_some_iff]
  constructor
  · rintro ⟨call, ⟨hcall, hkind, hname⟩, array, harray, htokens⟩
    have hhands := tokenArray_eq_some_iff.1 harray
    exact ⟨call, hcall, array, ⟨hkind, hname, hhands⟩,
      (tokensOf_eq_some_iff hhands.kind_eq).1 htokens⟩
  · rintro ⟨call, hcall, array, hrunner, hspells⟩
    exact ⟨call, ⟨hcall, hrunner.kind, hrunner.callee⟩, array,
      tokenArray_eq_some_iff.2 hrunner.array,
      (tokensOf_eq_some_iff hrunner.array.kind_eq).2 hspells⟩

theorem exists_runsAt_iff {runners : List String} {path : String} {source : SourceText}
    {tree : Node} {tokens : List String} (hr : w.files.read w.maxFileSize path = .ok source)
    (hp : parseFile path source.content = some tree) :
    (∃ line, w.RunsAt runners path line tokens) ↔ tokens ∈ tokenLists runners tree := by
  rw [mem_tokenLists]
  constructor
  · rintro ⟨line, source', tree', call, array, hr', hp', hcall, hrunner, hspells, -⟩
    obtain rfl := Except.ok.inj (hr.symm.trans hr')
    obtain rfl := Option.some_inj.1 (hp.symm.trans hp')
    exact ⟨call, hcall, array, hrunner, hspells⟩
  · rintro ⟨call, hcall, array, hrunner, hspells⟩
    exact ⟨call.line, source, tree, call, array, hr, hp, hcall, hrunner, hspells, rfl⟩

structure PairRuns (a b : String) (as bs : List (List String)) : Prop where
  texts : ∀ text ∈ [a, b],
    Text.decodeUtf8 text.toUTF8.toList = .ok text ∧ text.toUTF8.toList.length ≤ 100
  first : (parseFile "test/a.test.mjs" a).map (tokenLists ["run"]) = some as
  second : (parseFile "test/b.test.mjs" b).map (tokenLists ["run"]) = some bs

theorem PairRuns.exists_parsed {a b : String} {as bs : List (List String)} (h : PairRuns a b as bs) :
    ∃ x y tree tree', (testWorkspace a.toUTF8.toList b.toUTF8.toList).files.read 100
        "test/a.test.mjs" = .ok x ∧ parseFile "test/a.test.mjs" x.content = some tree ∧
      tokenLists ["run"] tree = as ∧
      (testWorkspace a.toUTF8.toList b.toUTF8.toList).files.read 100 "test/b.test.mjs" = .ok y ∧
      parseFile "test/b.test.mjs" y.content = some tree' ∧ tokenLists ["run"] tree' = bs := by
  obtain ⟨hdecode, hlength⟩ := h.texts a List.mem_cons_self
  obtain ⟨hdecode', hlength'⟩ := h.texts b (List.mem_cons_of_mem _ List.mem_cons_self)
  obtain ⟨tree, hp, has⟩ := Option.map_eq_some_iff.1 h.first
  obtain ⟨tree', hp', hbs⟩ := Option.map_eq_some_iff.1 h.second
  exact ⟨_, _, tree, tree', read_testWorkspace List.mem_cons_self hdecode hlength, hp, has,
    read_testWorkspace (List.mem_cons_of_mem _ List.mem_cons_self) hdecode' hlength', hp', hbs⟩

theorem PairRuns.parses {a b : String} {as bs : List (List String)} (h : PairRuns a b as bs) :
    ∀ path ∈ ["test/a.test.mjs", "test/b.test.mjs"],
      (testWorkspace a.toUTF8.toList b.toUTF8.toList).Parses uncached.cache.enabled path := by
  obtain ⟨x, y, tree, tree', hr, hp, -, hr', hp', -⟩ := h.exists_parsed
  intro path hpath
  rcases List.mem_cons.1 hpath with rfl | hpath
  · exact ⟨rfl, x, tree, hr, hp⟩
  · obtain rfl := List.mem_singleton.1 hpath
    exact ⟨rfl, y, tree', hr', hp'⟩

theorem PairRuns.runs_iff {a b : String} {as bs : List (List String)} (h : PairRuns a b as bs)
    (tokens : List String) : (testWorkspace a.toUTF8.toList b.toUTF8.toList).Runs ["run"]
      ["test/a.test.mjs", "test/b.test.mjs"] tokens ↔ tokens ∈ as ∨ tokens ∈ bs := by
  obtain ⟨x, y, tree, tree', hr, hp, has, hr', hp', hbs⟩ := h.exists_parsed
  unfold Workspace.Runs
  rw [List.exists_mem_cons_iff, List.exists_mem_cons_iff, exists_runsAt_iff hr hp,
    exists_runsAt_iff hr' hp', has, hbs]
  simp

def plainWorkspace : Workspace :=
  testWorkspace "run(['build', '--out', 'x'])\nrun(['-v'])\n".toUTF8.toList "".toUTF8.toList

theorem pairRuns_plain :
    PairRuns "run(['build', '--out', 'x'])\nrun(['-v'])\n" ""
      [["build", "--out", "x"], ["-v"]] [] where
  texts := by
    simp only [Text.toList_toUTF8]
    decide +kernel
  first := by decide +kernel
  second := by decide +kernel

def spreadWorkspace : Workspace :=
  testWorkspace "run(\x7b args: ['-v'] \x7d)\n".toUTF8.toList
    "t.run(['build', '--out', 'x'], run(['-v']))\n".toUTF8.toList

theorem pairRuns_spread :
    PairRuns "run(\x7b args: ['-v'] \x7d)\n" "t.run(['build', '--out', 'x'], run(['-v']))\n"
      [["-v"]] [["build", "--out", "x"], ["-v"]] where
  texts := by
    simp only [Text.toList_toUTF8]
    decide +kernel
  first := by decide +kernel
  second := by decide +kernel

theorem coverage_eq_of_runs_spread :
    Coverage.buildTree.SubcommandsApart ∧
    plainWorkspace.Trusts uncached.cache ∧ spreadWorkspace.Trusts uncached.cache ∧
    plainWorkspace.files.listFiles (testSearch .skip).selection (testSearch .skip).directory =
      .ok ["test/a.test.mjs", "test/b.test.mjs"] ∧
    spreadWorkspace.files.listFiles (testSearch .stop).selection (testSearch .stop).directory =
      .ok ["test/a.test.mjs", "test/b.test.mjs"] ∧
    (∀ path ∈ ["test/a.test.mjs", "test/b.test.mjs"],
      plainWorkspace.Parses uncached.cache.enabled path) ∧
    (∀ path ∈ ["test/a.test.mjs", "test/b.test.mjs"],
      spreadWorkspace.Parses uncached.cache.enabled path) ∧
    (∀ tokens,
      plainWorkspace.Runs (testSearch .skip).runners ["test/a.test.mjs", "test/b.test.mjs"] tokens ↔
        spreadWorkspace.Runs (testSearch .stop).runners ["test/a.test.mjs", "test/b.test.mjs"]
          tokens) ∧
    ∃ f f', (∀ r, Searches plainWorkspace (testSearch .skip) Coverage.buildTree 1 uncached r ↔
        r = .ok f) ∧
      (∀ r, Searches spreadWorkspace (testSearch .stop) Coverage.buildTree 4 uncached r ↔
        r = .ok f') ∧
      (Coverage.compute Coverage.buildTree f.invocations).Same
        (Coverage.compute Coverage.buildTree f'.invocations) ∧
      ∀ g p, (Recommendation.ofCoverage g
          (Coverage.compute Coverage.buildTree f.invocations)).map (Recommendation.chosen p) =
        (Recommendation.ofCoverage g
          (Coverage.compute Coverage.buildTree f'.invocations)).map (Recommendation.chosen p) := by
  have hsets (tokens : List String) :
      tokens ∈ [["build", "--out", "x"], ["-v"]] ∨ tokens ∈ ([] : List (List String)) ↔
        tokens ∈ [["-v"]] ∨ tokens ∈ [["build", "--out", "x"], ["-v"]] := by
    grind
  have hroot := Coverage.distinctTree_buildTree.subcommandsApart
  have hlist := listFiles_testWorkspace "run(['build', '--out', 'x'])\nrun(['-v'])\n".toUTF8.toList
    "".toUTF8.toList .skip
  have hlist' := listFiles_testWorkspace "run(\x7b args: ['-v'] \x7d)\n".toUTF8.toList
    "t.run(['build', '--out', 'x'], run(['-v']))\n".toUTF8.toList .stop
  have htokens : ∀ tokens,
      plainWorkspace.Runs (testSearch .skip).runners ["test/a.test.mjs", "test/b.test.mjs"] tokens ↔
        spreadWorkspace.Runs (testSearch .stop).runners ["test/a.test.mjs", "test/b.test.mjs"]
          tokens := by
    intro tokens
    have hplain := pairRuns_plain.runs_iff tokens
    have hspread := pairRuns_spread.runs_iff tokens
    exact hplain.trans ((hsets tokens).trans hspread.symm)
  exact ⟨hroot, trusts_uncached _, trusts_uncached _, hlist, hlist', pairRuns_plain.parses,
    pairRuns_spread.parses, htokens,
    coverage_eq_of_runs hroot (trusts_uncached _) (trusts_uncached _) hlist hlist'
      pairRuns_plain.parses pairRuns_spread.parses htokens⟩

end witness

end CommandCoverage
