import CommandCoverage.Proofs.Files.Finite
import Mathlib.Data.List.Nodup

namespace CommandCoverage

namespace Entry

inductive WellNamed : Entry → Prop
  | file (bytes : List UInt8) : WellNamed (.file bytes)
  | link (target : String) : WellNamed (.link target)
  | directory {es : List (String × Entry)} (distinct : (es.map (·.1)).Nodup)
      (isName : ∀ x ∈ es, Path.isName x.1 = true) (entries : ∀ x ∈ es, WellNamed x.2) :
      WellNamed (.directory es)

theorem wellNamed_empty : WellNamed (.directory []) :=
  .directory .nil (fun _ h ↦ by cases h) fun _ h ↦ by cases h

theorem WellNamed.of_lookup {d e : Entry} {n : String} (h : d.WellNamed)
    (hl : d.entries.lookup n = some e) : e.WellNamed := by
  cases h with
  | file => cases hl
  | link => cases hl
  | @directory es _ _ entries =>
    obtain ⟨before, after, hes, -⟩ := List.lookup_eq_some_iff.1 hl
    have hmem : (n, e) ∈ es := by
      change es = _ at hes
      simp [hes]
    exact entries _ hmem

end Entry

namespace FileTree

open CommandCoverage.Path

variable {t : FileTree} {s : Selection} {leads : String → Bool} {path q n : String} {e root : Entry}
  {es : List (String × Entry)} {files : List String} {p : Place}

section places

def Place.WellNamed (p : Place) : Prop := ∀ e ∈ p.entry :: p.above, e.WellNamed

theorem Place.WellNamed.child (h : p.WellNamed) (hl : p.entry.entries.lookup n = some e) :
    Place.WellNamed ⟨p.entry :: p.above, e⟩ :=
  List.forall_mem_cons.2 ⟨(h p.entry List.mem_cons_self).of_lookup hl, h⟩

theorem wellNamed_placeOf {above : List Entry} (h : ∀ e ∈ above, e.WellNamed) :
    (placeOf above).WellNamed := by
  cases above with
  | nil => exact List.forall_mem_singleton.2 Entry.wellNamed_empty
  | cons d ds => exact h

def Step.WellNamed : Step → Prop
  | .found p => p.WellNamed
  | .missing => True
  | .linked above _ _ => ∀ e ∈ above, e.WellNamed

theorem Place.WellNamed.advance (h : p.WellNamed) (ps : List String) :
    (advance p ps).WellNamed := by
  fun_induction FileTree.advance p ps with
  | case1 p => exact h
  | case2 => trivial
  | case3 p part rest _ _ ih => exact ih h
  | case4 p part rest _ _ _ _ ih => exact ih h
  | case5 p part rest _ _ _ d ds hp ih =>
    apply ih
    intro e he
    exact h e (hp ▸ List.mem_cons_of_mem _ he)
  | case6 => trivial
  | case7 => exact h
  | case8 p part rest _ _ _ e _ he ih => exact ih (h.child he)

theorem Place.WellNamed.follow (h : p.WellNamed) (hroot : root.WellNamed) {links : Nat}
    {ps : List String} {r : Place} (hf : follow root links p ps = some r) : r.WellNamed := by
  fun_induction FileTree.follow root links p ps with
  | case1 links p ps q hs =>
    have hstep := h.advance ps
    rw [hs] at hstep
    exact Option.some_inj.1 hf ▸ hstep
  | case2 | case3 => cases hf
  | case4 p ps above target rest hs links ih =>
    have hstep := h.advance ps
    rw [hs] at hstep
    apply ih _ hf
    split
    · exact List.forall_mem_singleton.2 hroot
    · exact wellNamed_placeOf hstep

theorem wellNamed_of_get? (h : t.root.WellNamed) (hg : t.get? path = some e) : e.WellNamed := by
  have htop : t.top.WellNamed := List.forall_mem_singleton.2 h
  replace hg := (get?_eq_some_iff.1 hg).1
  unfold standsAt at hg
  dsimp only at hg
  by_cases hempty : path.isEmpty = true
  · rw [if_pos hempty] at hg
    cases hg
  · rw [if_neg hempty] at hg
    obtain ⟨r, hr, rfl⟩ := Option.map_eq_some_iff.1 hg
    obtain ⟨p, hp, hf⟩ := Option.bind_eq_some_iff.1 hr
    have hstart : p.WellNamed := by
      split at hp
      · exact Option.some_inj.1 hp ▸ htop
      · have hstep := htop.advance t.workingDirectory
        unfold here at hp
        split at hp
        · rename_i hs
          split at hp
          · rw [hs] at hstep
            exact Option.some_inj.1 hp ▸ hstep
          · cases hp
        · cases hp
    exact hstart.follow h hf r.entry List.mem_cons_self

end places

theorem names_join_name (hn : isName n = true) (path : String) :
    names (join path n) = names path ++ [n] := by
  have hpart := (isName_iff.1 hn).1
  rw [names_join, isAbsolute_eq_false hpart.2.2, names_of_isPart hpart]
  rfl

theorem mem_byName {α : Type} {x : String × α} {xs : List (String × α)} : x ∈ byName xs ↔ x ∈ xs :=
  List.mem_mergeSort

theorem nodup_names_byName {α : Type} {xs : List (String × α)} (h : (xs.map (·.1)).Nodup) :
    ((byName xs).map (·.1)).Nodup :=
  ((List.mergeSort_perm xs _).map (·.1)).nodup_iff.2 h

theorem mem_listEach {x : String × List String} (h : x ∈ listEach s leads path es) :
    ∃ e, (x.1, e) ∈ es ∧ x.2 = listBelow s leads (join path x.1) e := by
  induction es with
  | nil => cases h
  | cons y es ih =>
    obtain ⟨m, d⟩ := y
    have hlater (h : x ∈ listEach s leads path es) :
        ∃ e, (x.1, e) ∈ (m, d) :: es ∧ x.2 = listBelow s leads (join path x.1) e := by
      obtain ⟨e, he, hx⟩ := ih h
      exact ⟨e, List.mem_cons_of_mem _ he, hx⟩
    rw [listEach] at h
    split at h
    · rcases List.mem_cons.1 h with rfl | h
      · exact ⟨d, List.mem_cons_self, rfl⟩
      · exact hlater h
    · exact hlater h

theorem names_listEach_sublist (s : Selection) (leads : String → Bool) (path : String)
    (es : List (String × Entry)) : ((listEach s leads path es).map (·.1)).Sublist (es.map (·.1)) := by
  induction es with
  | nil => exact .slnil
  | cons y es ih =>
    rw [listEach]
    split
    · exact ih.cons_cons _
    · exact ih.cons _

theorem exists_names_of_listed (h : e.WellNamed) (hq : q ∈ listBelow s leads path e) :
    ∃ n rest, names q = names path ++ n :: rest := by
  induction h generalizing path with
  | file => cases hq
  | link => cases hq
  | @directory es _ hnames _ ih =>
    rw [listBelow] at hq
    rcases List.mem_append.1 hq with hq | hq
    · obtain ⟨⟨n, x⟩, hx, rfl⟩ := List.mem_map.1 hq
      have hmem := (List.mem_filter.1 (mem_byName.1 hx)).1
      exact ⟨n, [], names_join_name (hnames _ hmem) path⟩
    · obtain ⟨x, hx, hq⟩ := List.mem_flatMap.1 hq
      obtain ⟨e, he, hlist⟩ := mem_listEach (mem_byName.1 hx)
      obtain ⟨m, rest, hrest⟩ := ih _ he (hlist ▸ hq)
      rw [names_join_name (hnames _ he), List.append_assoc] at hrest
      exact ⟨x.1, m :: rest, hrest⟩

theorem nodup_joined (hdistinct : (es.map (·.1)).Nodup) (hnames : ∀ x ∈ es, isName x.1 = true)
    (f : String × Entry → Bool) (path : String) :
    ((byName (es.filter f)).map fun x ↦ join path x.1).Nodup := by
  have hsub := (List.filter_sublist (p := f) (l := es)).map (·.1)
  have hnodup := nodup_names_byName (hdistinct.sublist hsub)
  have heq : ((byName (es.filter f)).map fun x ↦ join path x.1).map names =
      ((byName (es.filter f)).map (·.1)).map (names path ++ [·]) := by
    simp only [List.map_map]
    apply List.map_congr_left
    intro x hx
    have hmem := (List.mem_filter.1 (mem_byName.1 hx)).1
    exact names_join_name (hnames x hmem) path
  apply List.Nodup.of_map names
  rw [heq]
  apply hnodup.map
  intro a b hab
  exact List.singleton_inj.1 (List.append_cancel_left hab)

theorem exists_names_of_listed_child {x : String × List String}
    (hnames : ∀ x ∈ es, isName x.1 = true) (hentries : ∀ x ∈ es, x.2.WellNamed)
    (hx : x ∈ byName (listEach s leads path es)) (hq : q ∈ x.2) :
    ∃ m rest, names q = names path ++ x.1 :: m :: rest := by
  obtain ⟨e, he, hlist⟩ := mem_listEach (mem_byName.1 hx)
  rw [hlist] at hq
  obtain ⟨m, rest, hrest⟩ := exists_names_of_listed (hentries _ he) hq
  rw [names_join_name (hnames _ he), List.append_assoc] at hrest
  exact ⟨m, rest, hrest⟩

theorem nodup_listBelow (h : e.WellNamed) (s : Selection) (leads : String → Bool) (path : String) :
    (listBelow s leads path e).Nodup := by
  induction h generalizing path with
  | file => exact .nil
  | link => exact .nil
  | @directory es hdistinct hnames hentries ih =>
    rw [listBelow, List.nodup_append, List.nodup_flatMap]
    refine ⟨nodup_joined hdistinct hnames _ path, ⟨?_, ?_⟩, ?_⟩
    · intro x hx
      obtain ⟨d, hd, hlist⟩ := mem_listEach (mem_byName.1 hx)
      rw [hlist]
      exact ih _ hd (join path x.1)
    · have hdirs := nodup_names_byName (hdistinct.sublist (names_listEach_sublist s leads path es))
      refine (List.pairwise_map.1 hdirs).imp_of_mem ?_
      intro x y hx hy hne q hqx hqy
      obtain ⟨m, rest, hm⟩ := exists_names_of_listed_child hnames hentries hx hqx
      obtain ⟨m', rest', hm'⟩ := exists_names_of_listed_child hnames hentries hy hqy
      exact hne (List.cons.inj (List.append_cancel_left (hm.symm.trans hm'))).1
    · -- A file in the directory itself has one name more than it, the others have at least two.
      intro q hq q' hq' heq
      obtain ⟨x, hx, rfl⟩ := List.mem_map.1 hq
      obtain ⟨y, hy, hmem⟩ := List.mem_flatMap.1 hq'
      obtain ⟨m, rest, hm⟩ := exists_names_of_listed_child hnames hentries hy hmem
      have hname := names_join_name (hnames _ (List.mem_filter.1 (mem_byName.1 hx)).1) path
      rw [← heq, hname] at hm
      cases (List.cons.inj (List.append_cancel_left hm)).2

theorem nodup_listFiles (h : t.root.WellNamed) (hl : t.listFiles s path = .ok files) :
    files.Nodup := by
  unfold listFiles at hl
  split at hl
  · split at hl <;> cases hl
  · rename_i e he
    split at hl
    · cases hl
    · split at hl
      · cases hl
      · obtain rfl := Except.ok.inj hl
        exact nodup_listBelow (wellNamed_of_get? h he) _ _ _

/-- All entries of a directory are listed when they are selected files in the order of their
names. -/
theorem listFiles_flat (hpath : path ≠ "") (hg : t.get? (plainPath path) = some (.directory es))
    (hflat : ∀ x ∈ es, x.2.isFile = true) (hsorted : es.Pairwise fun a b ↦ a.1 ≤ b.1)
    (hselected : ∀ x ∈ es, s.lists x.1 = true) :
    t.listFiles s path = .ok (es.map fun x ↦ join path x.1) := by
  have hentry (x : String × Entry) (hx : x ∈ es) : x.2.isDirectory = false ∧ x.2.isLink = false := by
    obtain ⟨n, e⟩ := x
    have hfile := hflat _ hx
    cases e with
    | file => exact ⟨rfl, rfl⟩
    | link | directory => cases hfile
  have heach : ∀ (leads : String → Bool) (ds : List (String × Entry)), ds ⊆ es →
      listEach s leads path ds = [] := by
    intro leads ds hds
    induction ds with
    | nil => rfl
    | cons x ds ih =>
      obtain ⟨hx, hds⟩ := List.cons_subset.1 hds
      rw [listEach, (hentry x hx).1, if_neg (by simp), ih hds]
  have hlist (leads : String → Bool) :
      listBelow s leads path (.directory es) = es.map fun x ↦ join path x.1 := by
    have hkept : (es.filter fun x ↦
        !x.2.isDirectory && !(x.2.isLink && leads (join path x.1)) && s.lists x.1) = es := by
      rw [List.filter_eq_self]
      intro x hx
      simp [hentry x hx, hselected x hx]
    have hbyName : byName es = es := by
      apply List.mergeSort_of_pairwise
      exact hsorted.imp fun hab ↦ by simpa using hab
    have hnone := heach leads es (List.Subset.refl es)
    have hbelow := listBelow.eq_1 s leads path es
    dsimp only at hbelow
    rw [hbelow, hkept, hbyName, hnone]
    simp [byName]
  unfold listFiles
  rw [hg]
  dsimp only
  rw [if_neg (by simp [Entry.isDirectory]), if_neg (by simpa using hpath), hlist]

end FileTree

end CommandCoverage
