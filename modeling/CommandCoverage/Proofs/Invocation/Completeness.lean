import CommandCoverage.Proofs.Files.Listing
import CommandCoverage.Proofs.Invocation.Items
import CommandCoverage.Proofs.Invocation.Workers

namespace CommandCoverage

open Script Node

namespace Workspace

def Readable (w : Workspace) (path : String) : Prop :=
  ∃ source, w.files.read w.maxFileSize path = .ok source

def Faulty (w : Workspace) (path : String) : Prop :=
  ∃ source, w.files.read w.maxFileSize path = .ok source ∧ parseFile path source.content = none

def FirstFaulty (w : Workspace) (files : List String) (path : String) : Prop :=
  ∃ before after, files = before ++ path :: after ∧ w.Faulty path ∧
    ∀ p ∈ before, w.Readable p ∧ ¬w.Faulty p

end Workspace

structure LosesNothing (w : Workspace) (s : Search) (root : Command) (workers : Nat) (σ : Session)
    (files : List String) : Prop where
  nodup : files.Nodup
  gives : ∃ r, Searches w s root workers σ r
  lists : s.policy = .skip → (∀ path ∈ files, w.Readable path) →
    ∀ r, Searches w s root workers σ r →
      ∃ f items, r = .ok f ∧ w.Gathers s root files items ∧ f.Lists files items
  stops : s.policy = .stop → ∀ r, Searches w s root workers σ r → ∀ path reason paths,
    r = .error (.undiscoverable path reason paths) ↔
      w.FirstFaulty files path ∧ Failure.undiscoverable path reason paths = faultFailure path
  stops_iff : s.policy = .stop → (∀ path ∈ files, w.Readable path) →
    ∀ r, Searches w s root workers σ r →
      ((∃ path, r = .error (faultFailure path)) ↔ ∃ path ∈ files, w.Faulty path)

variable {w : Workspace} {s : Search} {root : Command} {workers : Nat} {σ : Session}
  {p path : String} {files : List String} {items : List Item} {found : List (String × FileFinding)}
  {source : SourceText} {f : Failure} {cached : Bool}

section order

theorem pairwise_idxOf (h : files.Nodup) :
    files.Pairwise fun p q ↦ files.idxOf p < files.idxOf q := by
  rw [List.pairwise_iff_getElem]
  intro i j hi hj hij
  rw [h.idxOf_getElem i hi, h.idxOf_getElem j hj]
  exact hij

theorem ofFiles_lists (hc : Collects found files items) (hnodup : files.Nodup)
    (hitems : w.Gathers s root files items)
    (horder : ∀ path ∈ files, ∀ source tree, w.files.read w.maxFileSize path = .ok source →
      parseFile path source.content = some tree → tree.InOrder) :
    (Finding.ofFiles found).Lists files items := by
  refine ⟨hc.files, ?_, hc.warnings, hc.skipped⟩
  have hplaces := hitems.pairwise_place (pairwise_idxOf hnodup) horder
  unfold Finding.ofFiles
  dsimp only
  rw [hc.files, hc.invocations]
  apply List.mergeSort_of_pairwise
  refine hplaces.imp ?_
  intro i j hij
  apply Bool.or_eq_true_iff.2
  rcases hij with hlt | ⟨heq, hle⟩
  · exact .inl (decide_eq_true hlt)
  · exact .inr (Bool.and_eq_true_iff.2 ⟨beq_iff_eq.2 heq, decide_eq_true hle⟩)

end order

section stopping

theorem firstFaulty_cons : w.FirstFaulty (p :: files) path ↔
    p = path ∧ w.Faulty p ∨ w.Readable p ∧ ¬w.Faulty p ∧ w.FirstFaulty files path := by
  constructor
  · rintro ⟨before, after, hfiles, hfaulty, hbefore⟩
    cases before with
    | nil =>
      obtain ⟨rfl, -⟩ := List.cons.inj hfiles
      exact .inl ⟨rfl, hfaulty⟩
    | cons q before =>
      obtain ⟨rfl, rfl⟩ := List.cons.inj hfiles
      obtain ⟨⟨hread, hnot⟩, hrest⟩ := List.forall_mem_cons.1 hbefore
      exact .inr ⟨hread, hnot, before, after, rfl, hfaulty, hrest⟩
  · rintro (⟨rfl, hfaulty⟩ | ⟨hread, hnot, before, after, rfl, hfaulty, hbefore⟩)
    · exact ⟨[], files, rfl, hfaulty, fun q hq ↦ by cases hq⟩
    · exact ⟨p :: before, after, rfl, hfaulty, List.forall_mem_cons.2 ⟨⟨hread, hnot⟩, hbefore⟩⟩

theorem exists_firstFaulty_iff (h : ∀ path ∈ files, w.Readable path) :
    (∃ path, w.FirstFaulty files path) ↔ ∃ path ∈ files, w.Faulty path := by
  induction files with
  | nil =>
    constructor
    · rintro ⟨path, before, after, hfiles, -⟩
      simp at hfiles
    · rintro ⟨path, hmem, -⟩
      cases hmem
  | cons p files ih =>
    obtain ⟨hread, hrest⟩ := List.forall_mem_cons.1 h
    rw [List.exists_mem_cons_iff, ← ih hrest]
    by_cases hp : w.Faulty p
    · exact ⟨fun _ ↦ .inl hp, fun _ ↦ ⟨p, firstFaulty_cons.2 (.inl ⟨rfl, hp⟩)⟩⟩
    · simp [firstFaulty_cons, hp, hread]

theorem read_ne_undiscoverable {path' reason : String} {paths : List String} :
    w.files.read w.maxFileSize path ≠ .error (.undiscoverable path' reason paths) := by
  intro hr
  rcases read_eq_error hr with ⟨why, suggestions, h⟩ | ⟨e, -, h⟩ <;> cases h

theorem finding_of_fault (hs : s.policy = .stop) (hr : w.files.read w.maxFileSize p = .ok source)
    (hk : w.keyFailure? cached p = none) (hp : parseFile p source.content = none) :
    w.finding cached s root p = .error (faultFailure p) := by
  rw [finding_of_keyed hr hk, Search.finding, hp, hs]
  rfl

theorem exists_finding (hr : w.files.read w.maxFileSize p = .ok source)
    (hk : w.keyFailure? cached p = none) {tree : Node}
    (hp : parseFile p source.content = some tree) :
    ∃ one, w.finding cached s root p = .ok one := by
  rw [finding_of_keyed hr hk, Search.finding, hp]
  exact ⟨_, rfl⟩

theorem not_readable (hr : w.files.read w.maxFileSize p = .error f) : ¬w.Readable p := by
  rintro ⟨source, hsource⟩
  rw [hr] at hsource
  cases hsource

theorem Workspace.Faulty.readable (h : w.Faulty p) : w.Readable p := by
  obtain ⟨source, hr, -⟩ := h
  exact ⟨source, hr⟩

theorem not_faulty (hr : w.files.read w.maxFileSize p = .ok source) {tree : Node}
    (hp : parseFile p source.content = some tree) : ¬w.Faulty p := by
  rintro ⟨source', hr', hp'⟩
  obtain rfl := Except.ok.inj (hr.symm.trans hr')
  rw [hp] at hp'
  cases hp'

theorem findings_eq_undiscoverable_iff (hs : s.policy = .stop)
    (hk : ∀ path ∈ files, w.keyFailure? cached path = none) {reason : String}
    {paths : List String} :
    w.findings cached s root files = .error (.undiscoverable path reason paths) ↔
      w.FirstFaulty files path ∧ Failure.undiscoverable path reason paths = faultFailure path := by
  induction files with
  | nil =>
    constructor
    · intro h
      cases h
    · rintro ⟨⟨before, after, hfiles, -⟩, -⟩
      simp at hfiles
  | cons p files ih =>
    obtain ⟨hkey, hkeys⟩ := List.forall_mem_cons.1 hk
    rw [firstFaulty_cons]
    cases hr : w.files.read w.maxFileSize p with
    | error f =>
      rw [findings_cons_of_error (finding_of_error hr)]
      have hnot := not_readable hr
      constructor
      · intro h
        exact absurd (hr.trans (congrArg _ (Except.error.inj h))) read_ne_undiscoverable
      · rintro ⟨⟨-, h⟩ | ⟨h, -⟩, -⟩
        · exact absurd h.readable hnot
        · exact absurd h hnot
    | ok source =>
      cases hp : parseFile p source.content with
      | none =>
        rw [findings_cons_of_error (finding_of_fault hs hr hkey hp)]
        have hfaulty : w.Faulty p := ⟨source, hr, hp⟩
        constructor
        · intro h
          have hfailure := Except.error.inj h
          have hpath : p = path := (Failure.undiscoverable.inj hfailure).1
          exact ⟨.inl ⟨hpath, hfaulty⟩, by rw [← hfailure, hpath]⟩
        · rintro ⟨⟨rfl, -⟩ | ⟨-, hnot, -⟩, heq⟩
          · rw [heq]
          · exact absurd hfaulty hnot
      | some tree =>
        obtain ⟨one, hone⟩ := exists_finding hr hkey hp
        rw [findings_cons_of_ok hone, except_map_eq_error_iff, ih hkeys]
        have hfaulty := not_faulty hr hp
        have hread : w.Readable p := ⟨source, hr⟩
        simp only [hfaulty, hread, and_false, false_or, not_false_eq_true, true_and]

end stopping

/-- A search loses, repeats and reorders nothing, whatever the number of workers. -/
theorem searches_losesNothing (hcache : w.Trusts σ.cache) (hroot : w.files.root.WellNamed)
    (hlist : w.files.listFiles s.selection s.directory = .ok files)
    (hkeys : ∀ path ∈ files, w.keyFailure? σ.cache.enabled path = none)
    (horder : ∀ path ∈ files, ∀ source tree, w.files.read w.maxFileSize path = .ok source →
      parseFile path source.content = some tree → tree.InOrder) :
    LosesNothing w s root workers σ files := by
  have hnodup := FileTree.nodup_listFiles hroot hlist
  have hstop (hs : s.policy = .stop) (path reason : String) (paths : List String) :
      w.found σ.cache.enabled s root = .error (.undiscoverable path reason paths) ↔
        w.FirstFaulty files path ∧
          Failure.undiscoverable path reason paths = faultFailure path := by
    rw [found_eq_map hlist, except_map_eq_error_iff, findings_eq_undiscoverable_iff hs hkeys]
  refine ⟨hnodup, ⟨_, (searches_iff hcache).2 rfl⟩, ?_, ?_, ?_⟩
  · intro hs hread r hr
    obtain rfl := (searches_iff hcache).1 hr
    have hpasses : ∀ path ∈ files, w.Passes σ.cache.enabled s path := by
      intro path hpath
      obtain ⟨source, hsource⟩ := hread path hpath
      exact ⟨source, hsource, hkeys path hpath, .inl hs⟩
    obtain ⟨found, items, heq, hitems, hcollects⟩ := @exists_collects w s root files _ hpasses
    rw [found_eq_map hlist, heq]
    exact ⟨_, items, rfl, hitems, ofFiles_lists hcollects hnodup hitems horder⟩
  · intro hs r hr path reason paths
    obtain rfl := (searches_iff hcache).1 hr
    exact hstop hs path reason paths
  · intro hs hread r hr
    obtain rfl := (searches_iff hcache).1 hr
    rw [← exists_firstFaulty_iff hread]
    apply exists_congr
    intro path
    constructor
    · intro h
      exact ((hstop hs path _ _).1 h).1
    · intro h
      exact (hstop hs path _ _).2 ⟨h, rfl⟩

section testWorkspace

def testWorkspace (a b : List UInt8) : Workspace where
  files := { root := .directory [("test",
    .directory [("a.test.mjs", .file a), ("b.test.mjs", .file b)])] }
  maxFileSize := 100

def testSearch (policy : FaultPolicy) : Search where
  directory := "test"
  selection := ⟨[".test.mjs"], []⟩
  runners := ["run"]
  policy

def uncached : Session where
  cache := { ttl := 3600, maxSize := 1, enabled := false }

theorem trusts_uncached (w : Workspace) : w.Trusts uncached.cache := .inl rfl

theorem wellNamed_testWorkspace (a b : List UInt8) : (testWorkspace a b).files.root.WellNamed := by
  have htests : Entry.WellNamed (.directory [("a.test.mjs", .file a), ("b.test.mjs", .file b)]) := by
    refine .directory (by simp) ?_ ?_
    · simp
      decide
    · simp [Entry.WellNamed.file]
  refine .directory (by simp) ?_ ?_
  · simp
    decide
  · simpa using htests

theorem listFiles_testWorkspace (a b : List UInt8) (policy : FaultPolicy) :
    (testWorkspace a b).files.listFiles (testSearch policy).selection (testSearch policy).directory =
      .ok ["test/a.test.mjs", "test/b.test.mjs"] := by
  have hselected : ∀ n ∈ ["a.test.mjs", "b.test.mjs"],
      (testSearch policy).selection.lists n = true := by
    cases policy <;> decide +kernel
  have hget : (testWorkspace a b).files.get? (FileTree.plainPath "test") =
      some (.directory [("a.test.mjs", .file a), ("b.test.mjs", .file b)]) := rfl
  have hsorted : ([("a.test.mjs", .file a), ("b.test.mjs", .file b)] : List (String × Entry)).Pairwise
      fun x y ↦ x.1 ≤ y.1 := by
    simp
  have hjoin : ["a.test.mjs", "b.test.mjs"].map (Path.join "test") =
      ["test/a.test.mjs", "test/b.test.mjs"] := by
    decide +kernel
  have hlist := FileTree.listFiles_flat (by decide) hget (by simp [Entry.isFile]) hsorted
    (by simpa using hselected)
  exact hlist.trans (congrArg Except.ok hjoin)

theorem get?_testWorkspace {a b bytes : List UInt8}
    (hx : (path, bytes) ∈ [("test/a.test.mjs", a), ("test/b.test.mjs", b)]) :
    (testWorkspace a b).files.get? (FileTree.plainPath path) = some (.file bytes) := by
  have hfirst : (testWorkspace a b).files.get? (FileTree.plainPath "test/a.test.mjs") =
      some (.file a) := rfl
  have hsecond : (testWorkspace a b).files.get? (FileTree.plainPath "test/b.test.mjs") =
      some (.file b) := rfl
  simp only [List.mem_cons, Prod.mk.injEq, List.not_mem_nil, or_false] at hx
  rcases hx with ⟨rfl, rfl⟩ | ⟨rfl, rfl⟩
  · exact hfirst
  · exact hsecond

theorem read_testWorkspace {a b bytes : List UInt8} {text : String}
    (hx : (path, bytes) ∈ [("test/a.test.mjs", a), ("test/b.test.mjs", b)])
    (hdecode : Text.decodeUtf8 bytes = .ok text) (hlength : bytes.length ≤ 100) :
    (testWorkspace a b).files.read (testWorkspace a b).maxFileSize path =
      .ok ⟨path, text, bytes.length⟩ := by
  have hget := get?_testWorkspace hx
  have hlimit : (testWorkspace a b).maxFileSize = 100 := rfl
  rw [hlimit, read_eq_ok_iff]
  exact ⟨bytes, hget, hlength, hdecode, rfl, rfl⟩

def nestedCalls : String := "run(['a'], run(\x7b args: [x] \x7d))\n"

/-- In the first file a call stands in a call, the second has a syntax error. -/
theorem searches_losesNothing_mixed :
    (testWorkspace nestedCalls.toUTF8.toList "(".toUTF8.toList).Trusts uncached.cache ∧
    (testWorkspace nestedCalls.toUTF8.toList "(".toUTF8.toList).files.root.WellNamed ∧
    (testWorkspace nestedCalls.toUTF8.toList "(".toUTF8.toList).files.listFiles
      (testSearch .skip).selection (testSearch .skip).directory =
        .ok ["test/a.test.mjs", "test/b.test.mjs"] ∧
    (∀ path ∈ ["test/a.test.mjs", "test/b.test.mjs"],
      (testWorkspace nestedCalls.toUTF8.toList "(".toUTF8.toList).keyFailure? uncached.cache.enabled
        path = none) ∧
    (∀ path ∈ ["test/a.test.mjs", "test/b.test.mjs"], ∀ source tree,
      (testWorkspace nestedCalls.toUTF8.toList "(".toUTF8.toList).files.read
        (testWorkspace nestedCalls.toUTF8.toList "(".toUTF8.toList).maxFileSize path = .ok source →
          parseFile path source.content = some tree → tree.InOrder) ∧
    LosesNothing (testWorkspace nestedCalls.toUTF8.toList "(".toUTF8.toList) (testSearch .skip)
      { name := "cli" } 4 uncached ["test/a.test.mjs", "test/b.test.mjs"] := by
  have htexts : ∀ text ∈ [nestedCalls, "("],
      Text.decodeUtf8 text.toUTF8.toList = .ok text ∧ text.toUTF8.toList.length ≤ 100 := by
    simp only [Text.toList_toUTF8]
    decide +kernel
  have htrees : ∀ x ∈ [("test/a.test.mjs", nestedCalls), ("test/b.test.mjs", "(")],
      (parseFile x.1 x.2).all (decide ·.InOrder) = true := by
    decide +kernel
  have horder : ∀ path ∈ ["test/a.test.mjs", "test/b.test.mjs"], ∀ source tree,
      (testWorkspace nestedCalls.toUTF8.toList "(".toUTF8.toList).files.read
        (testWorkspace nestedCalls.toUTF8.toList "(".toUTF8.toList).maxFileSize path = .ok source →
          parseFile path source.content = some tree → tree.InOrder := by
    intro path hpath source tree hr hp
    obtain ⟨text, htext, hx, hy⟩ : ∃ text ∈ [nestedCalls, "("],
        (path, text.toUTF8.toList) ∈ [("test/a.test.mjs", nestedCalls.toUTF8.toList),
          ("test/b.test.mjs", "(".toUTF8.toList)] ∧
        (path, text) ∈ [("test/a.test.mjs", nestedCalls), ("test/b.test.mjs", "(")] := by
      rcases List.mem_cons.1 hpath with rfl | hpath
      · exact ⟨nestedCalls, List.mem_cons_self, List.mem_cons_self, List.mem_cons_self⟩
      · obtain rfl := List.mem_singleton.1 hpath
        exact ⟨"(", List.mem_cons_of_mem _ List.mem_cons_self,
          List.mem_cons_of_mem _ List.mem_cons_self, List.mem_cons_of_mem _ List.mem_cons_self⟩
    obtain ⟨hdecode, hlength⟩ := htexts text htext
    obtain rfl := Except.ok.inj ((read_testWorkspace hx hdecode hlength).symm.trans hr)
    have hall := htrees _ hy
    rw [hp] at hall
    exact of_decide_eq_true hall
  have hkeys : ∀ path ∈ ["test/a.test.mjs", "test/b.test.mjs"],
      (testWorkspace nestedCalls.toUTF8.toList "(".toUTF8.toList).keyFailure? uncached.cache.enabled
        path = none :=
    fun _ _ ↦ rfl
  exact ⟨trusts_uncached _, wellNamed_testWorkspace _ _, listFiles_testWorkspace _ _ .skip, hkeys,
    horder, searches_losesNothing (trusts_uncached _) (wellNamed_testWorkspace _ _)
      (listFiles_testWorkspace _ _ .skip) hkeys horder⟩

/-- A file that cannot be read stops a search before a file with a syntax error does. -/
theorem faulty_not_reported :
    (testWorkspace [255] "(".toUTF8.toList).files.listFiles (testSearch .stop).selection
      (testSearch .stop).directory = .ok ["test/a.test.mjs", "test/b.test.mjs"] ∧
    (testWorkspace [255] "(".toUTF8.toList).Faulty "test/b.test.mjs" ∧
    ∀ r, Searches (testWorkspace [255] "(".toUTF8.toList) (testSearch .stop) { name := "cli" } 1
      uncached r → ∀ path reason paths, r ≠ .error (.undiscoverable path reason paths) := by
  have hlist := listFiles_testWorkspace [255] "(".toUTF8.toList .stop
  have hstop : (testSearch .stop).policy = .stop := rfl
  have hfirst : ¬(testWorkspace [255] "(".toUTF8.toList).Readable "test/a.test.mjs" := by
    rintro ⟨source, hr⟩
    obtain ⟨bytes, hget, -, hdecode, -⟩ := read_eq_ok_iff.1 hr
    have hbytes := (get?_testWorkspace List.mem_cons_self).symm.trans hget
    obtain rfl : [255] = bytes := by simpa using hbytes
    cases hdecode
  have hsecond : (testWorkspace [255] "(".toUTF8.toList).Faulty "test/b.test.mjs" := by
    have htext : Text.decodeUtf8 "(".toUTF8.toList = .ok "(" ∧ "(".toUTF8.toList.length ≤ 100 := by
      simp only [Text.toList_toUTF8]
      decide +kernel
    have hparse : parseFile "test/b.test.mjs" "(" = none :=
      Option.isNone_iff_eq_none.1 (by decide +kernel)
    exact ⟨_, read_testWorkspace (List.mem_cons_of_mem _ List.mem_cons_self) htext.1 htext.2, hparse⟩
  refine ⟨hlist, hsecond, ?_⟩
  intro r hr path reason paths heq
  obtain rfl := (searches_iff (trusts_uncached _)).1 hr
  have hfindings := except_map_eq_error_iff.1 ((found_eq_map hlist).symm.trans heq)
  have hfaulty := ((findings_eq_undiscoverable_iff hstop fun _ _ ↦ rfl).1 hfindings).1
  rcases firstFaulty_cons.1 hfaulty with ⟨-, source, hsource, -⟩ | ⟨hread, -⟩
  · exact hfirst ⟨source, hsource⟩
  · exact hfirst hread

end testWorkspace

end CommandCoverage
