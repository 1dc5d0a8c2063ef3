import CommandCoverage.Files.Reader
import CommandCoverage.Proofs.Files.Names
import CommandCoverage.Proofs.Table

namespace CommandCoverage.FileTree

open CommandCoverage.Path

variable {t : FileTree} {p q : Place} {root : Entry} {links : Nat} {ss : List String}
  {s path : String} {bytes : List UInt8}

/-- What is left of a path after a part of it. -/
def Step.after : Step → (Place → Step) → List String → Step
  | .found q, k, _ => k q
  | .missing, _, _ => .missing
  | .linked above target rest, _, more => .linked above target (rest ++ more)

theorem advance_append (p : Place) (ps qs : List String) :
    advance p (ps ++ qs) = (advance p ps).after (advance · qs) qs := by
  fun_induction advance p ps <;> simp_all [advance, Step.after, -List.lookup_eq_none_iff]

def Place.Rooted (p : Place) : Prop := ∀ e ∈ p.above, e.isDirectory = true

def Step.Rooted : Step → Prop
  | .found p => p.Rooted
  | .missing => True
  | .linked above _ _ => ∀ e ∈ above, e.isDirectory = true

theorem Place.Rooted.advance (h : p.Rooted) (ss : List String) : (advance p ss).Rooted := by
  fun_induction FileTree.advance p ss with
  | case1 => exact h
  | case2 => trivial
  | case3 p part rest hd hs ih => exact ih h
  | case4 p part rest hd hs hu ha ih => exact ih h
  | case5 p part rest hd hs hu d ds ha ih =>
    exact ih fun e he ↦ h e (ha ▸ List.mem_cons_of_mem d he)
  | case6 => trivial
  | case7 p part rest hd hs hu target hl =>
    exact List.forall_mem_cons.2 ⟨by simpa using hd, h⟩
  | case8 p part rest hd hs hu e he hl ih =>
    exact ih (List.forall_mem_cons.2 ⟨by simpa using hd, h⟩)

theorem rooted_placeOf {above : List Entry} (h : ∀ e ∈ above, e.isDirectory = true) :
    (placeOf above).Rooted := by
  cases above with
  | nil => exact nofun
  | cons d ds => exact fun e he ↦ h e (List.mem_cons_of_mem d he)

theorem Place.Rooted.advance_last (h : p.Rooted) (hs : s = "" ∨ s = "." ∨ s = "..") :
    FileTree.advance p [s] = .missing ∨
    ∃ q, FileTree.advance p [s] = .found q ∧ q.entry.isDirectory = true := by
  by_cases hd : p.entry.isDirectory
  · refine .inr ?_
    rcases hs with rfl | rfl | rfl
    · exact ⟨p, by simp [FileTree.advance, hd], hd⟩
    · exact ⟨p, by simp [FileTree.advance, hd], hd⟩
    · cases ha : p.above with
      | nil => exact ⟨p, by simp [FileTree.advance, hd, ha], hd⟩
      | cons d ds =>
        exact ⟨⟨ds, d⟩, by simp [FileTree.advance, hd, ha], h d (by simp [ha])⟩
  · exact .inl (by simp [FileTree.advance, hd])

theorem isDirectory_of_advance (h : p.Rooted) (hs : s = "" ∨ s = "." ∨ s = "..") {r : Place}
    (ha : advance p ss = .found r) (hf : follow root links p (ss ++ [s]) = some q) :
    q.entry.isDirectory = true := by
  have hrooted := h.advance ss
  rw [ha] at hrooted
  unfold follow at hf
  rw [advance_append, ha] at hf
  rcases Place.Rooted.advance_last hrooted hs with hr | ⟨x, hr, hd⟩
  · simp [Step.after, hr] at hf
  · obtain rfl : x = q := by simpa [Step.after, hr] using hf
    exact hd

theorem isDirectory_of_follow (h : p.Rooted) (hs : s = "" ∨ s = "." ∨ s = "..")
    (hf : follow root links p (ss ++ [s]) = some q) : q.entry.isDirectory = true := by
  -- A link leads on from where it stands, or from the top, with one link less to follow.
  induction links generalizing p ss with
  | zero =>
    cases ha : advance p ss with
    | found r => exact isDirectory_of_advance h hs ha hf
    | missing => simp [follow, advance_append, ha, Step.after] at hf
    | linked above target rest => simp [follow, advance_append, ha, Step.after] at hf
  | succ links ih =>
    cases ha : advance p ss with
    | found r => exact isDirectory_of_advance h hs ha hf
    | missing => simp [follow, advance_append, ha, Step.after] at hf
    | linked above target rest =>
      have hrooted := h.advance ss
      rw [ha] at hrooted
      rw [follow, advance_append, ha, Step.after] at hf
      dsimp only at hf
      rw [← List.append_assoc] at hf
      split at hf
      · exact ih (show Place.Rooted ⟨[], root⟩ from nofun) hf
      · exact ih (rooted_placeOf hrooted) hf

theorem rooted_start (hp : (if isAbsolute path then some t.top else t.here) = some p) :
    p.Rooted := by
  have htop : t.top.Rooted := nofun
  split at hp
  · obtain rfl := Option.some.inj hp
    exact htop
  · have hrooted := htop.advance t.workingDirectory
    unfold here at hp
    cases ha : advance t.top t.workingDirectory with
    | found q =>
      rw [ha] at hp hrooted
      obtain rfl : q = p := by simp_all
      exact hrooted
    | missing => simp [ha] at hp
    | linked => simp [ha] at hp

theorem get?_eq_some_iff {e : Entry} : t.get? path = some e ↔
    t.standsAt path = some e ∧ ∀ f, t.refusal? path ≠ some (.look f) := by
  unfold get?
  cases h : t.refusal? path with
  | none => simp
  | some r => cases r <;> simp

theorem exists_follow (h : t.get? path = some (.file bytes)) : ∃ p q,
    (if isAbsolute path then some t.top else t.here) = some p ∧
    follow t.root mostLinks p (parts path) = some q ∧ q.entry = .file bytes := by
  replace h := (get?_eq_some_iff.1 h).1
  unfold standsAt at h
  dsimp only at h
  split at h
  · simp at h
  · simp only [Option.map_eq_some_iff, Option.bind_eq_some_iff] at h
    obtain ⟨q, ⟨p, hp, hf⟩, hq⟩ := h
    exact ⟨p, q, hp, hf, hq⟩

theorem exists_names_of_file (h : t.get? path = some (.file bytes)) :
    ∃ ns n, names path = ns ++ [n] ∧ isName n = true := by
  obtain ⟨p, q, hp, hf, hq⟩ := exists_follow h
  obtain ⟨ss, s, hss⟩ : ∃ ss s, parts path = ss ++ [s] := by
    have hne : parts path ≠ [] := by simp [parts]
    exact ⟨_, _, (List.dropLast_concat_getLast hne).symm⟩
  have hlast : ¬(s = "" ∨ s = "." ∨ s = "..") := by
    intro hs
    rw [hss] at hf
    have hd := isDirectory_of_follow (rooted_start hp) hs hf
    simp [hq, Entry.isDirectory] at hd
  rw [not_or, not_or] at hlast
  obtain ⟨hempty, hdot, hup⟩ := hlast
  have hnames : names path = ss.filter (fun s ↦ !s.isEmpty && s != ".") ++ [s] := by
    rw [names, hss, List.filter_append, List.filter_cons_of_pos (by simp [hempty, hdot]),
      List.filter_nil]
  have hpart : IsPart s := isPart_of_mem_names (p := path) (by simp [hnames])
  exact ⟨_, s, hnames, isName_iff.2 ⟨hpart, hup⟩⟩

theorem parts_plainPath (h : names path ≠ []) : parts (plainPath path) =
    if isAbsolute path then "" :: names path else names path := by
  have hp := parts_intercalate h fun s hs ↦ (isPart_of_mem_names hs).2.2
  cases ha : isAbsolute path with
  | true =>
    have hs := parts_append_slash "" ("/".intercalate (names path))
    rw [hp, show parts "" = [""] from rfl] at hs
    simpa [plainPath, ha] using hs
  | false =>
    have hne : "/".intercalate (names path) ≠ "" := by
      intro he
      rw [he, show parts "" = [""] from rfl] at hp
      exact (isPart_of_mem_names (p := path) (s := "") (by simp [← hp])).1 rfl
    simpa [plainPath, ha, hne] using hp

theorem plainPath_ne_empty (h : names path ≠ []) : plainPath path ≠ "" := by
  intro he
  have hp := parts_plainPath h
  rw [he, show parts "" = [""] from rfl] at hp
  split at hp
  · exact h (List.cons_eq_cons.1 hp).2.symm
  · exact (isPart_of_mem_names (p := path) (s := "") (by simp [← hp])).1 rfl

theorem isAbsolute_plainPath (path : String) : isAbsolute (plainPath path) = isAbsolute path := by
  have hi := isAbsolute_intercalate fun s (hs : s ∈ names path) ↦ isPart_of_mem_names hs
  cases ha : isAbsolute path with
  | true => simp [plainPath, ha, isAbsolute_append, show isAbsolute "/" = true from rfl]
  | false =>
    by_cases he : "/".intercalate (names path) = ""
    · simp [plainPath, ha, he, show isAbsolute "." = false from rfl]
    · simp [plainPath, ha, he, hi]

theorem names_plainPath (path : String) : names (plainPath path) = names path := by
  by_cases h : names path = []
  · have hplain : plainPath path = "/" ∨ plainPath path = "." := by
      unfold plainPath
      cases isAbsolute path <;> simp [h]
    rcases hplain with hplain | hplain <;> rw [hplain, h] <;> rfl
  · have hkept : (names path).filter (fun s ↦ !s.isEmpty && s != ".") = names path := by
      rw [names, List.filter_filter]
      simp
    rw [names, parts_plainPath h]
    split
    · rw [List.filter_cons_of_neg (by simp), hkept]
    · exact hkept

theorem names_absolute_of_start
    (hp : (if isAbsolute path then some t.top else t.here) = some p) :
    names (t.absolute path) = normalizeParts true
      (if isAbsolute path then [] else t.workingDirectory.reverse) (names path) := by
  cases ha : isAbsolute path with
  | true => exact names_absolute_of_isAbsolute ha _
  | false =>
    have hhere : t.here = some p := by simpa [ha] using hp
    have hd : ∀ s ∈ t.workingDirectory, isName s = true := by
      unfold here at hhere
      split at hhere <;> simp_all
    rw [FileTree.absolute, names_absolute (fun s hs ↦ (isName_iff.1 (hd s hs)).1) ha,
      normalizeParts_names_append hd, List.append_nil]
    rfl

theorem refusal?_plainPath (hp : (if isAbsolute path then some t.top else t.here) = some p) :
    t.refusal? (plainPath path) = t.refusal? path := by
  have hplain : (if isAbsolute (plainPath path) then some t.top else t.here) = some p := by
    rw [isAbsolute_plainPath]
    exact hp
  have hparts : t.spelledParts (plainPath path) = t.spelledParts path := by
    rw [spelledParts, spelledParts, names_absolute_of_start hp, names_absolute_of_start hplain,
      isAbsolute_plainPath, names_plainPath]
  rw [refusal?, refusal?, hparts]

theorem names_absolute_of_file (h : t.get? (plainPath path) = some (.file bytes)) :
    names (t.absolute path) = normalizeParts true
      (if isAbsolute path then [] else t.workingDirectory.reverse) (names path) := by
  obtain ⟨p, q, hp, -⟩ := exists_follow h
  rw [isAbsolute_plainPath] at hp
  exact names_absolute_of_start hp

theorem lastPart_normalize_absolute (h : t.get? (plainPath path) = some (.file bytes)) :
    lastPart (normalize (t.absolute path)) = lastPart path := by
  obtain ⟨ns, n, hns, hn⟩ := exists_names_of_file h
  rw [names_plainPath] at hns
  have habs := names_absolute_of_file h
  generalize (if isAbsolute path then [] else t.workingDirectory.reverse) = kept at habs
  have hroot : isAbsolute (t.absolute path) = true := by
    rw [FileTree.absolute, Path.absolute, isAbsolute_normalize]
    exact isAbsolute_join_root t.workingDirectory path
  have hnorm : names (normalize (t.absolute path)) =
      normalizeParts true [] (normalizeParts true kept ns ++ [n]) := by
    rw [names_normalize, hroot, ← normalizeParts_filter]
    exact congrArg _ (habs.trans (by rw [hns, normalizeParts_concat hn]))
  rw [lastPart, lastPart, hnorm, hns, normalizeParts_concat hn]
  simp

section flat

variable {files : List (String × List UInt8)} {name : String} {read : List UInt8}

def flat (files : List (String × List UInt8)) : FileTree :=
  { root := .directory (files.map fun x ↦ (x.1, .file x.2)) }

theorem lookup_flat (s : String) : (flat files).root.entries.lookup s = (files.lookup s).map .file := by
  change (files.map fun x ↦ (x.1, Entry.file x.2)).lookup s = _
  induction files with
  | nil => rfl
  | cons x files ih =>
    rw [List.map_cons, Table.lookup_cons_eq, Table.lookup_cons_eq, ih]
    split <;> rfl

theorem advance_flat (files : List (String × List UInt8)) (ss : List String) :
    advance (flat files).top ss = .missing ∨ advance (flat files).top ss = .found (flat files).top ∨
    ∃ name bytes, files.lookup name = some bytes ∧ normalizeParts true [] ss = [name] ∧
      advance (flat files).top ss = .found ⟨[(flat files).root], .file bytes⟩ := by
  have hroot : (flat files).root.isDirectory = true := rfl
  induction ss with
  | nil => exact .inr (.inl rfl)
  | cons s ss ih =>
    rw [top] at ih ⊢
    by_cases hstay : s = "" ∨ s = "."
    · simpa [advance, normalizeParts, hroot, hstay] using ih
    by_cases hs : s = ".."
    · subst hs
      simpa [advance, normalizeParts, hroot] using ih
    have hnext : advance ⟨[], (flat files).root⟩ (s :: ss) = (files.lookup s).elim .missing
        fun bytes ↦ advance ⟨[(flat files).root], .file bytes⟩ ss := by
      simp only [advance, hroot, lookup_flat]
      cases files.lookup s <;> simp [hs, not_or.1 hstay]
    rw [hnext]
    cases hl : files.lookup s with
    | none => exact .inl rfl
    | some bytes =>
      cases ss with
      | nil =>
        refine .inr (.inr ⟨s, bytes, hl, ?_, rfl⟩)
        simp [normalizeParts, hs, not_or.1 hstay]
      | cons r ss => exact .inl (by simp [advance, Entry.isDirectory])

theorem get?_flat (h : (flat files).get? path = some (.file read)) :
    ∃ name, files.lookup name = some read ∧ normalizeParts true [] (parts path) = [name] := by
  obtain ⟨p, q, hp, hf, hq⟩ := exists_follow h
  have hstart : (if isAbsolute path then some (flat files).top else (flat files).here) =
    some (flat files).top := by split <;> rfl
  obtain rfl := Option.some.inj (hstart.symm.trans hp)
  unfold follow at hf
  rcases advance_flat files (parts path) with ha | ha | ⟨name, bytes, hl, hparts, ha⟩
  · rw [ha] at hf
    cases hf
  · rw [ha] at hf
    obtain rfl := Option.some.inj hf
    cases hq
  · rw [ha] at hf
    obtain rfl := Option.some.inj hf
    obtain rfl := Entry.file.inj hq
    exact ⟨name, hl, hparts⟩

theorem absolute_flat (h : (flat files).get? (plainPath path) = some (.file read)) :
    ∃ name, (name, read) ∈ files ∧ (flat files).absolute path ∈ ["/" ++ name, "//" ++ name] := by
  obtain ⟨name, hl, hparts⟩ := get?_flat h
  have hnames : names ((flat files).absolute path) = [name] := by
    have hroot : (flat files).workingDirectory.reverse = [] := rfl
    rw [names_absolute_of_file h, hroot, ite_self, ← names_plainPath, ← hparts]
    exact normalizeParts_filter ..
  refine ⟨name, Table.mem_entries_of_get? (t := ⟨files⟩) hl, ?_⟩
  obtain ⟨r, hr, habs⟩ := absolute_eq (flat files).workingDirectory path
  rw [← FileTree.absolute, hnames] at habs
  rw [habs]
  rcases List.mem_pair.1 hr with rfl | rfl
  · exact List.mem_cons_self
  · exact List.mem_cons_of_mem _ List.mem_cons_self

def single (name : String) (bytes : List UInt8) : FileTree := flat [(name, bytes)]

theorem absolute_single (h : (single name bytes).get? (plainPath path) = some (.file read)) :
    read = bytes ∧ (single name bytes).absolute path ∈ ["/" ++ name, "//" ++ name] := by
  obtain ⟨other, hmem, habs⟩ := absolute_flat h
  obtain ⟨rfl, rfl⟩ := Prod.mk.inj (List.mem_singleton.1 hmem)
  exact ⟨rfl, habs⟩

end flat

end CommandCoverage.FileTree
