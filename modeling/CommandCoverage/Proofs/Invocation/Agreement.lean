import CommandCoverage.Invocation.Search
import CommandCoverage.Proofs.Coverage.Marks

namespace CommandCoverage

open Command

namespace Command

variable {c root : Command} {name : String} {path owner : List String} {t : ArgTable} {n : String}

def FindsNamed (root : Command) (path : List String) (name : String) (owner : List String)
    (t : ArgTable) (n : String) : Prop :=
  ∃ a, root.Finds path name owner t a ∧ a.name = n

def Unmarked (root : Command) : Prop :=
  ∀ path c, root.resolve path = some c → ∀ t, ∀ a ∈ c.table t, a.tested = false

theorem Unmarked.of_subcommands (h : ∀ t, ∀ a ∈ root.table t, a.tested = false)
    (hs : ∀ d ∈ root.subcommands, d.Unmarked) : root.Unmarked := by
  rintro (_ | ⟨p, ps⟩) c hc
  · obtain rfl := Option.some_inj.1 hc
    exact h
  · obtain ⟨d, hd, hc⟩ := Option.bind_eq_some_iff.1 hc
    exact hs d (List.mem_of_find?_eq_some hd) ps c hc

/-- The name of a declared argument means an argument of this name, in the same table or in the
flags. -/
theorem exists_means_name {a : Arg} (h : a ∈ c.table t) :
    ∃ u b, c.Means a.name u b ∧ b.name = a.name ∧ (u = t ∨ u = .flags) := by
  have hfits : ∀ b, c.fits a.name b = true ↔ b.name = a.name := by
    refine fits_of_named ⟨a, ?_, rfl⟩
    cases t <;> simp_all [table]
  cases hf : c.flags.find? (c.fits a.name) with
  | some b => exact ⟨.flags, b, means_flags_iff.2 hf, (hfits b).1 (List.find?_some hf), .inr rfl⟩
  | none =>
    cases t with
    | flags => simpa [(hfits a).2 rfl] using List.find?_eq_none.1 hf a h
    | options =>
      obtain ⟨b, hb⟩ := Option.isSome_iff_exists.1 (List.find?_isSome.2 ⟨a, h, (hfits a).2 rfl⟩)
      exact ⟨.options, b, means_options_iff.2 ⟨hf, hb⟩, (hfits b).1 (List.find?_some hb), .inl rfl⟩

/-- How early the search from a command upwards comes to a table. -/
def rank (owner : List String) : ArgTable → Nat
  | .flags => 2 * owner.length + 1
  | .options => 2 * owner.length

/-- What a name finds, its own name finds again, unless it finds something that comes earlier. -/
theorem FindsNamed.again (h : root.FindsNamed path name owner t n) :
    ∃ o u m, root.FindsNamed path n o u m ∧
      (o = owner ∧ u = t ∧ m = n ∨ rank owner t < rank o u) := by
  obtain ⟨a, ha, rfl⟩ := h
  obtain ⟨c, hc, hm⟩ := ha.means
  obtain ⟨v, d, hd, hdn, hv⟩ := exists_means_name hm.mem
  obtain ⟨⟨o, b⟩, hl⟩ : ∃ x, root.lookup a.name path = some x := by
    rw [← Option.ne_none_iff_exists', ne_eq, lookup_eq_none_iff ha.leads]
    exact fun hn ↦ hn owner ha.above c hc v d hd
  obtain ⟨u, hb⟩ := finds_of_lookup ha.leads hl
  refine ⟨o, u, b.name, ⟨b, hb, rfl⟩, ?_⟩
  by_cases ho : o = owner
  · subst ho
    obtain ⟨rfl, rfl⟩ := ((hb.means_iff hc).1 hb).unique hd
    rcases hv with rfl | rfl
    · exact .inl ⟨rfl, rfl, hdn⟩
    · cases t with
      | flags => exact .inl ⟨rfl, rfl, hdn⟩
      | options => exact .inr (by simp [rank])
  · right
    have hlt : owner.length < o.length := by
      rcases List.prefix_or_prefix_of_prefix ha.above hb.above with hp | hp
      · exact lt_of_le_of_ne hp.length_le fun he ↦ ho (hp.eq_of_length he).symm
      · exact absurd hd (hb.nearest owner hp (Ne.symm ho) ha.above c hc v d)
    cases t <;> cases u <;> simp only [rank] <;> omega

theorem FindsNamed.unique {owner' : List String} {u : ArgTable} {m : String}
    (h : root.FindsNamed path name owner t n) (h' : root.FindsNamed path name owner' u m) :
    owner = owner' ∧ t = u ∧ n = m := by
  obtain ⟨a, ha, rfl⟩ := h
  obtain ⟨b, hb, rfl⟩ := h'
  obtain ⟨ho, ht, rfl⟩ := ha.unique hb
  exact ⟨ho, ht, rfl⟩

theorem MarkedTree.exists_tested_iff {files : List String → List String}
    {used : List String → ArgTable → String → Prop} {tree : Command}
    (h : MarkedTree files used root tree) (hu : root.Unmarked) :
    (∃ c a, tree.resolve owner = some c ∧ a ∈ c.table t ∧ a.name = n ∧ a.tested = true) ↔
      (∃ c a, root.resolve owner = some c ∧ a ∈ c.table t ∧ a.name = n) ∧ used owner t n := by
  have hr := h owner
  have hu' := hu owner
  generalize root.resolve owner = x, tree.resolve owner = y at hr hu'
  cases hr with
  | none => simp
  | @some c d hd =>
    have hu'' := hu' c rfl t
    have hargs := hd.args t
    simp only [Option.some.injEq, exists_and_left, exists_eq_left']
    clear hd hu'
    generalize c.table t = as, d.table t = bs at hargs hu''
    induction hargs with
    | nil => simp
    | @cons a b as bs ha _ ih =>
      have hat : a.tested = false := hu'' a (by simp)
      have hih := ih fun a ha ↦ hu'' a (by simp [ha])
      have hbt := ha.tested
      simp only [hat, Bool.false_eq_true, false_or] at hbt
      simp only [List.mem_cons, or_and_right, exists_or, exists_eq_left, hih, ha.name, hbt]
      grind

end Command

namespace Invocation

variable {root : Command} {tokens : List String} {owner : List String} {t : ArgTable} {n : String}

/-- Some name in the tokens finds the argument `n` of a table of the command at `owner`. -/
def FoundBy (root : Command) (tokens owner : List String) (t : ArgTable) (n : String) : Prop :=
  ∃ name ∈ (request root tokens).names,
    root.FindsNamed (classify root tokens).path name owner t n

def MarkedBy (root : Command) (file : String) (line : Nat) (tokens owner : List String)
    (t : ArgTable) (n : String) : Prop :=
  ∃ c a, (Coverage.compute root [ofTokens root file line tokens]).tree.resolve owner = some c ∧
    a ∈ c.table t ∧ a.name = n ∧ a.tested = true

/-- A name is passed on as the name of the argument it finds; one that finds nothing stays as it is
unless every command understands it. -/
theorem passed_iff {lookup : String → Option Arg} {w m : String} :
    flagOf lookup w = some m ∨ optionOf lookup w = some m ↔
      (∃ a, lookup w = some a ∧ a.name = m) ∨
        lookup w = none ∧ w = m ∧ w ∉ builtinFlags := by
  unfold flagOf optionOf
  cases lookup w with
  | none => simp [and_comm]
  | some a => cases h : a.isFlag <;> simp [h]

theorem mem_ofTokens_iff {file : String} {line : Nat} {m : String} :
    (m ∈ (ofTokens root file line tokens).flags ∨ m ∈ (ofTokens root file line tokens).options) ↔
      ∃ w ∈ (request root tokens).names, (∃ a, meaning root tokens w = some a ∧ a.name = m) ∨
        meaning root tokens w = none ∧ w = m ∧ w ∉ builtinFlags := by
  simp only [ofTokens, classify, Text.mem_sortedSet, List.mem_filterMap, ← passed_iff, and_or_left,
    exists_or]

theorem placeOf_eq (h : (root.resolve (classify root tokens).path).isSome) :
    placeOf root tokens = (classify root tokens).path := by
  simp only [classify] at h ⊢
  simp [placeOf, h]

theorem meaning_eq_some_iff (h : (root.resolve (classify root tokens).path).isSome) {w : String}
    {a : Arg} : meaning root tokens w = some a ↔
      ∃ owner t, root.Finds (classify root tokens).path w owner t a := by
  simp only [meaning, placeOf_eq h, Option.map_eq_some_iff, Prod.exists, exists_eq_right,
    lookup_eq_some_iff h]

theorem uses_ofTokens_iff (h : (root.resolve (classify root tokens).path).isSome) {file : String}
    {line : Nat} : Coverage.Uses root [ofTokens root file line tokens] owner t n ↔
      ∃ o u m, FoundBy root tokens o u m ∧
        root.FindsNamed (classify root tokens).path m owner t n := by
  have hpath : (ofTokens root file line tokens).path = (classify root tokens).path := rfl
  simp only [Coverage.Uses, List.mem_singleton, exists_eq_left, mem_ofTokens_iff, hpath]
  constructor
  · rintro ⟨m, ⟨w, hw, hm⟩, hn⟩
    rcases hm with ⟨a, ha, rfl⟩ | ⟨hnone, rfl, -⟩
    · obtain ⟨o, u, hf⟩ := (meaning_eq_some_iff h).1 ha
      exact ⟨o, u, a.name, ⟨w, hw, a, hf, rfl⟩, hn⟩
    · obtain ⟨b, hb, -⟩ := hn
      rw [(meaning_eq_some_iff h).2 ⟨owner, t, hb⟩] at hnone
      exact absurd hnone (Option.some_ne_none b)
  · rintro ⟨o, u, m, ⟨w, hw, a, hf, rfl⟩, hn⟩
    exact ⟨a.name, ⟨w, hw, .inl ⟨a, (meaning_eq_some_iff h).2 ⟨o, u, hf⟩, rfl⟩⟩, hn⟩

theorem markedBy_iff (hu : root.Unmarked) (h : (root.resolve (classify root tokens).path).isSome)
    {file : String} {line : Nat} : MarkedBy root file line tokens owner t n ↔
      ∃ o u m, FoundBy root tokens o u m ∧
        root.FindsNamed (classify root tokens).path m owner t n := by
  rw [MarkedBy, (Coverage.compute_markedTree root _).exists_tested_iff hu, uses_ofTokens_iff h,
    and_iff_right_iff_imp]
  rintro ⟨o, u, m, -, a, ha, rfl⟩
  obtain ⟨c, hc, hm⟩ := ha.means
  exact ⟨c, a, hc, hm.mem, rfl⟩

/-- A call marks the arguments that its tokens find, and no others, exactly when each of them is
found by its own name too. -/
theorem marks_found_iff (hu : root.Unmarked)
    (h : (root.resolve (classify root tokens).path).isSome) (file : String) (line : Nat) :
    (∀ owner t n, MarkedBy root file line tokens owner t n ↔ FoundBy root tokens owner t n) ↔
      ∀ owner t n, FoundBy root tokens owner t n →
        root.FindsNamed (classify root tokens).path n owner t n := by
  simp only [markedBy_iff hu h]
  constructor
  · intro hall
    -- An argument that its own name misses is found again by one that comes earlier and is missed.
    suffices ∀ k owner t n, rank owner t = k → FoundBy root tokens owner t n →
        root.FindsNamed (classify root tokens).path n owner t n from
      fun owner t n ↦ this _ owner t n rfl
    intro k
    induction k using Nat.strong_induction_on with
    | _ k ih =>
      rintro owner t n rfl hn
      obtain ⟨o, u, m, hm, hf⟩ := (hall owner t n).2 hn
      obtain ⟨w, -, hw⟩ := id hm
      obtain ⟨o', u', m', hagain, hrank⟩ := hw.again
      obtain ⟨rfl, rfl, rfl⟩ := hf.unique hagain
      rcases hrank with ⟨rfl, rfl, rfl⟩ | hrank
      · exact hf
      · obtain ⟨rfl, rfl, rfl⟩ := (ih _ hrank o u m rfl hm).unique hf
        exact absurd hrank (lt_irrefl _)
  · intro hown owner t n
    constructor
    · rintro ⟨o, u, m, hm, hf⟩
      obtain ⟨rfl, rfl, rfl⟩ := (hown o u m hm).unique hf
      exact hm
    · exact fun hn ↦ ⟨owner, t, n, hn, hown owner t n hn⟩

def hidingTree : Command where
  name := "cli"
  flags := [{ name := "verbose", type := "boolean", aliases := ["v"] }]
  subcommands := [
    { name := "build", flags := [{ name := "verbose", type := "boolean" }] },
    { name := "watch" }]

theorem unmarked_hidingTree : hidingTree.Unmarked := by
  have hroot : ∀ t, ∀ a ∈ hidingTree.table t, a.tested = false := by rintro (_ | _) <;> decide
  have hchildren : ∀ d ∈ hidingTree.subcommands, ∀ t, ∀ a ∈ d.table t, a.tested = false := by
    intro d hd t
    revert d
    cases t <;> decide
  have hleaves : ∀ d ∈ hidingTree.subcommands, d.subcommands = [] := by simp [hidingTree]
  refine .of_subcommands hroot fun d hd ↦ .of_subcommands (hchildren d hd) ?_
  simp [hleaves d hd]

theorem marks_found_iff_hidingTree :
    hidingTree.Unmarked ∧ (hidingTree.resolve (classify hidingTree ["watch", "-v"]).path).isSome ∧
      ((∀ owner t n, MarkedBy hidingTree "test/a.mjs" 1 ["watch", "-v"] owner t n ↔
          FoundBy hidingTree ["watch", "-v"] owner t n) ↔
        ∀ owner t n, FoundBy hidingTree ["watch", "-v"] owner t n →
          hidingTree.FindsNamed (classify hidingTree ["watch", "-v"]).path n owner t n) :=
  ⟨unmarked_hidingTree, rfl, marks_found_iff unmarked_hidingTree rfl "test/a.mjs" 1⟩

/-- The tokens `build -v` find the flag of the root and do not mark it. -/
theorem exists_found_not_marked : ∃ root tokens file line owner t n, root.Unmarked ∧
    (root.resolve (classify root tokens).path).isSome ∧ FoundBy root tokens owner t n ∧
    ¬MarkedBy root file line tokens owner t n := by
  have h : (hidingTree.resolve (classify hidingTree ["build", "-v"]).path).isSome := rfl
  have hpath : (classify hidingTree ["build", "-v"]).path = ["build"] := rfl
  have hnames : (request hidingTree ["build", "-v"]).names = ["v"] := rfl
  let a : Arg := { name := "verbose", type := "boolean", aliases := ["v"] }
  have hfound : hidingTree.Finds ["build"] "v" [] .flags a := by
    have hlookup : hidingTree.lookup "v" ["build"] = some ([], a) := rfl
    obtain ⟨t, ht⟩ := finds_of_lookup rfl hlookup
    have hm : hidingTree.Means "v" .flags a := means_flags_iff.2 rfl
    exact (ht.means_iff rfl).2 hm
  have hlookup : hidingTree.lookup "verbose" ["build"] =
      some (["build"], { name := "verbose", type := "boolean" }) := rfl
  refine ⟨hidingTree, ["build", "-v"], "test/a.mjs", 1, [], .flags, "verbose", unmarked_hidingTree,
    h, ⟨"v", by simp [hnames], a, hfound, rfl⟩, ?_⟩
  rw [markedBy_iff unmarked_hidingTree h]
  rintro ⟨o, u, m, ⟨w, hw, hwm⟩, b, hb, -⟩
  obtain rfl : w = "v" := by simpa [hnames] using hw
  obtain ⟨rfl, rfl, rfl⟩ := hwm.unique ⟨a, hfound, rfl⟩
  obtain ⟨v, hv⟩ := finds_of_lookup h hlookup
  exact absurd (hb.unique hv).1 (by simp)

end Invocation

end CommandCoverage
