import CommandCoverage.Proofs.Files.Listing
import Mathlib.Data.List.Infix
import Mathlib.Data.String.Basic

namespace CommandCoverage

namespace Text

variable {patterns : List String} {name : String}

def Included (patterns : List String) (name : String) : Prop :=
  ∃ p ∈ patterns, if isGlob p then matchesGlob p name = true else p.toList <:+ name.toList

def Excluded (patterns : List String) (name : String) : Prop :=
  ∃ p ∈ patterns, if isGlob p then matchesGlob p name = true else p.toList <:+: name.toList

theorem mem_rests {s r : List Char} : r ∈ Glob.rests s ↔ r <:+ s := by
  induction s with
  | nil => simp [Glob.rests]
  | cons c s ih => rw [Glob.rests, List.mem_cons, ih, List.suffix_cons_iff]

theorem isInfix_iff {p s : List Char} : isInfix p s = true ↔ p <:+: s := by
  rw [isInfix, List.any_eq_true, List.infix_iff_prefix_suffix]
  constructor
  · rintro ⟨r, hr, hp⟩
    exact ⟨r, List.isPrefixOf_iff_prefix.1 hp, mem_rests.1 hr⟩
  · rintro ⟨r, hp, hr⟩
    exact ⟨r, mem_rests.2 hr, List.isPrefixOf_iff_prefix.2 hp⟩

theorem matchesInclude_iff : matchesInclude patterns name = true ↔ Included patterns name := by
  rw [matchesInclude, List.any_eq_true]
  refine exists_congr fun p ↦ and_congr_right fun _ ↦ ?_
  split
  · rfl
  · exact List.isSuffixOf_iff_suffix

theorem matchesExclude_iff : matchesExclude patterns name = true ↔ Excluded patterns name := by
  rw [matchesExclude, List.any_eq_true]
  refine exists_congr fun p ↦ and_congr_right fun _ ↦ ?_
  split
  · rfl
  · exact isInfix_iff

end Text

namespace FileTree

open CommandCoverage.Path

inductive GoesDown : Entry → List String → Entry → Prop
  | here (e : Entry) : GoesDown e [] e
  | into {es : List (String × Entry)} {n : String} {d e : Entry} {way : List String}
      (hm : (n, d) ∈ es) (h : GoesDown d way e) : GoesDown (.directory es) (n :: way) e

def pathOf (path : String) (way : List String) : String := way.foldl join path

def CountsAsFile (leads : String → Bool) (path : String) : Entry → Prop
  | .file _ => True
  | .link _ => leads path = false
  | .directory _ => False

structure Selected (s : Selection) (leads : String → Bool) (path : String) (e : Entry)
    (dirs : List String) (n : String) : Prop where
  found : ∃ es x, GoesDown e dirs (.directory es) ∧ (n, x) ∈ es ∧
    CountsAsFile leads (pathOf path (dirs ++ [n])) x
  entered : ∀ d ∈ dirs, ¬Text.Excluded s.exclude d
  kept : ¬Text.Excluded s.exclude n
  included : Text.Included s.include_ n

/-- The order of ways: the files of a directory come first, then what is below each of its
directories. -/
inductive Precedes : List String → List String → Prop
  | files {m n : String} (h : m < n) : Precedes [m] [n]
  | file {m n k : String} {way : List String} : Precedes [m] (n :: k :: way)
  | directories {m n j k : String} {way way' : List String} (h : m < n) :
      Precedes (m :: j :: way) (n :: k :: way')
  | within {n : String} {way way' : List String} (h : Precedes way way') :
      Precedes (n :: way) (n :: way')

variable {t : FileTree} {s : Selection} {leads : String → Bool} {path q n : String} {e d : Entry}
  {es : List (String × Entry)} {way way' dirs : List String}

theorem pairwise_byName {α : Type} {xs : List (String × α)} (h : (xs.map (·.1)).Nodup) :
    (byName xs).Pairwise fun a b ↦ a.1 < b.1 := by
  have htrans (a b c : String × α) (hab : decide (a.1 ≤ b.1)) (hbc : decide (b.1 ≤ c.1)) :
      decide (a.1 ≤ c.1) := by
    simp only [decide_eq_true_eq] at *
    exact le_trans hab hbc
  have htotal (a b : String × α) : (decide (a.1 ≤ b.1) || decide (b.1 ≤ a.1)) = true := by
    simpa using le_total a.1 b.1
  have hle : (byName xs).Pairwise fun a b ↦ decide (a.1 ≤ b.1) :=
    List.pairwise_mergeSort htrans htotal xs
  have hne : (byName xs).Pairwise fun a b ↦ a.1 ≠ b.1 :=
    List.pairwise_map.1 (nodup_names_byName h)
  apply List.Pairwise.imp₂ _ hle hne
  intro a b hab hne
  exact lt_of_le_of_ne (by simpa using hab) hne

theorem byName_map {α β : Type} (f : String → α → β) (xs : List (String × α)) :
    byName (xs.map fun x ↦ (x.1, f x.1 x.2)) = (byName xs).map fun x ↦ (x.1, f x.1 x.2) := by
  unfold byName
  rw [List.map_mergeSort]
  intro a _ b _
  rfl

theorem listEach_eq (s : Selection) (leads : String → Bool) (path : String)
    (es : List (String × Entry)) : listEach s leads path es =
      (es.filter fun x ↦ x.2.isDirectory && !s.excludes x.1).map fun x ↦
        (x.1, listBelow s leads (join path x.1) x.2) := by
  induction es with
  | nil => rfl
  | cons x es ih =>
    obtain ⟨n, e⟩ := x
    rw [listEach, ih]
    split
    · rw [List.filter_cons_of_pos (by assumption), List.map_cons]
    · rw [List.filter_cons_of_neg (by assumption)]

def filesIn (s : Selection) (leads : String → Bool) (path : String) (es : List (String × Entry)) :
    List (String × Entry) :=
  byName (es.filter fun x ↦
    !x.2.isDirectory && !(x.2.isLink && leads (join path x.1)) && s.lists x.1)

def enteredIn (s : Selection) (es : List (String × Entry)) : List (String × Entry) :=
  byName (es.filter fun x ↦ x.2.isDirectory && !s.excludes x.1)

theorem listBelow_directory (s : Selection) (leads : String → Bool) (path : String)
    (es : List (String × Entry)) : listBelow s leads path (.directory es) =
      (filesIn s leads path es).map (fun x ↦ join path x.1) ++
        (enteredIn s es).flatMap fun x ↦ listBelow s leads (join path x.1) x.2 := by
  have hbelow := listBelow.eq_1 s leads path es
  dsimp only at hbelow
  rw [hbelow, listEach_eq, byName_map fun n e ↦ listBelow s leads (join path n) e,
    List.flatMap_map]
  rfl

theorem pairwise_filesIn (h : (es.map (·.1)).Nodup) (s : Selection) (leads : String → Bool)
    (path : String) : (filesIn s leads path es).Pairwise fun a b ↦ a.1 < b.1 :=
  pairwise_byName (h.sublist (List.filter_sublist.map _))

theorem pairwise_enteredIn (h : (es.map (·.1)).Nodup) (s : Selection) :
    (enteredIn s es).Pairwise fun a b ↦ a.1 < b.1 :=
  pairwise_byName (h.sublist (List.filter_sublist.map _))

theorem countsAsFile_iff {x : Entry} : CountsAsFile leads q x ↔
    (!x.isDirectory && !(x.isLink && leads q)) = true := by
  cases x <;> simp [CountsAsFile, Entry.isDirectory, Entry.isLink]

theorem mem_filesIn {x : String × Entry} : x ∈ filesIn s leads path es ↔
    x ∈ es ∧ CountsAsFile leads (join path x.1) x.2 ∧ s.lists x.1 = true := by
  rw [filesIn, mem_byName, List.mem_filter, Bool.and_eq_true, countsAsFile_iff]

theorem mem_enteredIn {x : String × Entry} : x ∈ enteredIn s es ↔
    x ∈ es ∧ x.2.isDirectory = true ∧ s.excludes x.1 = false := by
  rw [enteredIn, mem_byName, List.mem_filter, Bool.and_eq_true, Bool.not_eq_true']

theorem excludes_eq_false_iff : s.excludes n = false ↔ ¬Text.Excluded s.exclude n := by
  rw [← Text.matchesExclude_iff, Bool.not_eq_true]
  rfl

theorem lists_iff : s.lists n = true ↔ ¬Text.Excluded s.exclude n ∧ Text.Included s.include_ n := by
  rw [Selection.lists, Bool.and_eq_true, Bool.not_eq_true', excludes_eq_false_iff,
    Text.matchesInclude_iff]

theorem selected_nil_iff : Selected s leads path (.directory es) [] n ↔
    ∃ x, (n, x) ∈ filesIn s leads path es := by
  simp only [mem_filesIn, lists_iff]
  constructor
  · rintro ⟨⟨es', x, hdown, hm, hx⟩, -, hk, hi⟩
    cases hdown
    exact ⟨x, hm, hx, hk, hi⟩
  · rintro ⟨x, hm, hx, hk, hi⟩
    exact ⟨⟨es, x, .here _, hm, hx⟩, nofun, hk, hi⟩

theorem Selected.isDirectory (h : Selected s leads path e dirs n) : e.isDirectory = true := by
  obtain ⟨es, x, hdown, -⟩ := h.found
  cases hdown <;> rfl

theorem selected_cons_iff {m : String} : Selected s leads path (.directory es) (m :: dirs) n ↔
    ∃ x, (m, x) ∈ enteredIn s es ∧ Selected s leads (join path m) x dirs n := by
  simp only [mem_enteredIn, excludes_eq_false_iff]
  constructor
  · rintro ⟨⟨es', x, hdown, hm, hx⟩, he, hk, hi⟩
    obtain ⟨hfirst, hothers⟩ := List.forall_mem_cons.1 he
    cases hdown with
    | into hd hdown =>
      have hs : Selected s leads (join path m) _ dirs n := ⟨⟨es', x, hdown, hm, hx⟩, hothers, hk, hi⟩
      exact ⟨_, ⟨hd, hs.isDirectory, hfirst⟩, hs⟩
  · rintro ⟨d, ⟨hd, -, hfirst⟩, ⟨es', x, hdown, hm, hx⟩, hothers, hk, hi⟩
    exact ⟨⟨es', x, .into hd hdown, hm, hx⟩, List.forall_mem_cons.2 ⟨hfirst, hothers⟩, hk, hi⟩

structure Goes (s : Selection) (leads : String → Bool) (path : String) (e : Entry)
    (ways : List (List String)) : Prop where
  listed : listBelow s leads path e = ways.map (pathOf path)
  ordered : ways.Pairwise Precedes
  selected : ∀ way, way ∈ ways ↔ ∃ dirs n, way = dirs ++ [n] ∧ Selected s leads path e dirs n

theorem Goes.exists_cons {ways : List (List String)} (h : Goes s leads path e ways)
    (hw : way ∈ ways) : ∃ k rest, way = k :: rest := by
  obtain ⟨dirs, n, rfl, -⟩ := (h.selected way).1 hw
  exact List.exists_cons_of_ne_nil (by simp)

section directory

variable {below : String × Entry → List (List String)}

/-- The ways to the files of a directory, and then those below each directory that is entered, which
have its name ahead. -/
def waysIn (s : Selection) (leads : String → Bool) (path : String) (es : List (String × Entry))
    (below : String × Entry → List (List String)) : List (List String) :=
  (filesIn s leads path es).map (fun x ↦ [x.1]) ++
    (enteredIn s es).flatMap fun x ↦ (below x).map (x.1 :: ·)

theorem listBelow_eq_waysIn (h : ∀ x ∈ es, Goes s leads (join path x.1) x.2 (below x)) :
    listBelow s leads path (.directory es) = (waysIn s leads path es below).map (pathOf path) := by
  rw [listBelow_directory, waysIn, List.map_append, List.map_map, List.map_flatMap]
  congr 1
  apply List.flatMap_congr
  intro x hx
  rw [(h x (mem_enteredIn.1 hx).1).listed, List.map_map]
  rfl

theorem pairwise_waysIn (h : ∀ x ∈ es, Goes s leads (join path x.1) x.2 (below x))
    (hdistinct : (es.map (·.1)).Nodup) : (waysIn s leads path es below).Pairwise Precedes := by
  have hbelow : ∀ x ∈ enteredIn s es, Goes s leads (join path x.1) x.2 (below x) :=
    fun x hx ↦ h x (mem_enteredIn.1 hx).1
  rw [waysIn, List.pairwise_append, List.pairwise_map, List.pairwise_flatMap]
  refine ⟨(pairwise_filesIn hdistinct s leads path).imp .files, ⟨?_, ?_⟩, ?_⟩
  · intro x hx
    exact List.pairwise_map.2 ((hbelow x hx).ordered.imp .within)
  · apply (pairwise_enteredIn hdistinct s).imp_of_mem
    intro x y hx hy hxy way hway way' hway'
    obtain ⟨w, hw, rfl⟩ := List.mem_map.1 hway
    obtain ⟨w', hw', rfl⟩ := List.mem_map.1 hway'
    obtain ⟨j, r, rfl⟩ := (hbelow x hx).exists_cons hw
    obtain ⟨k, r', rfl⟩ := (hbelow y hy).exists_cons hw'
    exact .directories hxy
  · intro way hway way' hway'
    obtain ⟨x, hx, rfl⟩ := List.mem_map.1 hway
    obtain ⟨y, hy, hy'⟩ := List.mem_flatMap.1 hway'
    obtain ⟨w, hw, rfl⟩ := List.mem_map.1 hy'
    obtain ⟨k, r, rfl⟩ := (hbelow y hy).exists_cons hw
    exact .file

theorem mem_waysIn_iff (h : ∀ x ∈ es, Goes s leads (join path x.1) x.2 (below x)) :
    way ∈ waysIn s leads path es below ↔
      ∃ dirs n, way = dirs ++ [n] ∧ Selected s leads path (.directory es) dirs n := by
  rw [waysIn, List.mem_append, List.mem_map, List.mem_flatMap]
  constructor
  · rintro (⟨⟨n, x⟩, hx, rfl⟩ | ⟨⟨m, x⟩, hx, hway⟩)
    · exact ⟨[], n, rfl, selected_nil_iff.2 ⟨x, hx⟩⟩
    · obtain ⟨w, hw, rfl⟩ := List.mem_map.1 hway
      obtain ⟨dirs, n, rfl, hs⟩ := ((h _ (mem_enteredIn.1 hx).1).selected w).1 hw
      exact ⟨m :: dirs, n, rfl, selected_cons_iff.2 ⟨x, hx, hs⟩⟩
  · rintro ⟨dirs, n, rfl, hs⟩
    cases dirs with
    | nil =>
      obtain ⟨x, hx⟩ := selected_nil_iff.1 hs
      exact .inl ⟨(n, x), hx, rfl⟩
    | cons m dirs =>
      obtain ⟨x, hx, hs⟩ := selected_cons_iff.1 hs
      have hw : dirs ++ [n] ∈ below (m, x) :=
        ((h _ (mem_enteredIn.1 hx).1).selected _).2 ⟨dirs, n, rfl, hs⟩
      exact .inr ⟨(m, x), hx, List.mem_map_of_mem hw⟩

end directory

theorem exists_goes (h : e.WellNamed) (s : Selection) (leads : String → Bool) (path : String) :
    ∃ ways, Goes s leads path e ways := by
  induction h generalizing path with
  | file | link =>
    refine ⟨[], rfl, .nil, fun way ↦ ?_⟩
    simp only [List.not_mem_nil, false_iff]
    rintro ⟨dirs, n, -, hs⟩
    cases hs.isDirectory
  | @directory es hdistinct _ _ ih =>
    choose! below hbelow using fun x hx ↦ ih x hx (join path x.1)
    exact ⟨waysIn s leads path es below, listBelow_eq_waysIn hbelow,
      pairwise_waysIn hbelow hdistinct, fun _ ↦ mem_waysIn_iff hbelow⟩

/-- A listing names exactly the selected files, each once, the files of a directory before those
below its directories and both in the order of their names. -/
theorem listFiles_selected (h : t.root.WellNamed)
    (hd : t.get? (plainPath path) = some (.directory es)) (hp : path ≠ "") :
    ∃ ways : List (List String), t.listFiles s path = .ok (ways.map (pathOf path)) ∧
      (ways.map (pathOf path)).Nodup ∧ ways.Pairwise Precedes ∧ ∀ way, way ∈ ways ↔ ∃ dirs n, way = dirs ++ [n] ∧
        Selected s (fun p ↦ (t.get? p).any Entry.isDirectory) path (.directory es) dirs n := by
  obtain ⟨ways, hways⟩ := exists_goes (wellNamed_of_get? h hd) s
    (fun p ↦ (t.get? p).any Entry.isDirectory) path
  have hlist : t.listFiles s path = .ok (ways.map (pathOf path)) := by
    rw [listFiles, hd, ← hways.listed]
    simp [Entry.isDirectory, hp]
  exact ⟨ways, hlist, nodup_listFiles h hlist, hways.ordered, hways.selected⟩

/-- Tests beside a directory with more of them, one that is excluded, a link to a directory and a
link that leads nowhere. -/
def walkedTree : FileTree where
  root := .directory [("test", .directory walkedEntries)]
where
  walkedEntries : List (String × Entry) :=
    [("b.test.mjs", .file []), ("a", .directory [("c.test.mjs", .file [])]),
      ("node_modules", .directory [("d.test.mjs", .file [])]), ("again", .link "a"),
      ("lost.test.mjs", .link "missing")]

theorem listFiles_selected_walked :
    walkedTree.root.WellNamed ∧
    walkedTree.get? (plainPath "test") = some (.directory walkedTree.walkedEntries) ∧
    ∃ ways : List (List String), walkedTree.listFiles ⟨[".test.mjs"], ["node_modules"]⟩ "test" =
        .ok (ways.map (pathOf "test")) ∧ (ways.map (pathOf "test")).Nodup ∧
      ways.Pairwise Precedes ∧ ∀ way, way ∈ ways ↔ ∃ dirs n, way = dirs ++ [n] ∧
        Selected ⟨[".test.mjs"], ["node_modules"]⟩
          (fun p ↦ (walkedTree.get? p).any Entry.isDirectory) "test"
          (.directory walkedTree.walkedEntries) dirs n := by
  have hfiles (n : String) (hn : isName n = true) :
      Entry.WellNamed (.directory [(n, .file [])]) :=
    .directory (by simp) (by simpa using hn) (by simp [Entry.WellNamed.file])
  have hentries : Entry.WellNamed (.directory walkedTree.walkedEntries) := by
    refine .directory (by decide) (by decide +kernel) ?_
    simp only [walkedTree.walkedEntries, List.forall_mem_cons]
    exact ⟨.file _, hfiles _ (by decide), hfiles _ (by decide), .link _, .link _, nofun⟩
  have hroot : walkedTree.root.WellNamed :=
    .directory (by simp) (by decide) (by simpa using hentries)
  have hget : walkedTree.get? (plainPath "test") = some (.directory walkedTree.walkedEntries) := rfl
  exact ⟨hroot, hget, listFiles_selected hroot hget (by decide)⟩

end FileTree

end CommandCoverage
