import CommandCoverage.Files.Reader
import CommandCoverage.Proofs.Files.Names

namespace CommandCoverage

namespace Path

structure Plain (p : String) : Prop where
  upsFirst : UpsFirst (names p)
  rooted : isAbsolute p = true → ".." ∉ names p

variable {a b e p s x : String} {ds : List String}

theorem plain_normalize (p : String) : Plain (normalize p) := by
  constructor
  · rw [names_normalize]
    cases isAbsolute p with
    | false => exact upsFirst_normalizeParts (by simp [UpsFirst])
    | true =>
      refine List.pairwise_iff_forall_sublist.2 fun {s t} hst ht ↦ ?_
      subst ht
      exact absurd (hst.subset (by simp)) (dots_not_mem_normalizeParts (by simp))
  · intro h
    rw [isAbsolute_normalize] at h
    rw [names_normalize, h]
    exact dots_not_mem_normalizeParts (by simp)

theorem Plain.of_prefix (h : Plain b) (hp : ds <+: names b) (hx : isName x = true)
    (hn : names p = ds ++ [x]) (ha : isAbsolute p = isAbsolute b) : Plain p := by
  have hx' := (isName_iff.1 hx).2
  constructor
  · rw [hn, upsFirst_concat]
    exact ⟨h.upsFirst.sublist hp.sublist, fun t _ hd ↦ absurd hd hx'⟩
  · intro hr
    rw [ha] at hr
    rw [hn, List.mem_append, not_or]
    exact ⟨fun hm ↦ h.rooted hr (hp.subset hm), by simpa using Ne.symm hx'⟩

structure Ending (e : String) : Prop where
  last : e.toList.getLast? = some 's'
  noSlash : '/' ∉ e.toList

theorem Ending.isName (h : Ending e) (hs : '/' ∉ s.toList) : isName (s ++ e) = true := by
  have hlast : (s ++ e).toList.getLast? = some 's' := by simp [h.last]
  rw [isName_iff]
  refine ⟨⟨?_, ?_, by simp [hs, h.noSlash]⟩, ?_⟩ <;> rintro he <;> simp [he] at hlast

theorem exists_directory (p : String) : ∃ d, p = d ++ baseName p ∧ '/' ∉ (baseName p).toList ∧
    ∀ s, names (d ++ s) = names d ++ names s := by
  refine ⟨String.ofList (p.toList.reverse.dropWhile (· != '/')).reverse, ?_, ?_, ?_⟩
  · rw [← String.toList_inj]
    simp [baseName, ← List.reverse_append]
  · simp only [baseName, String.toList_ofList, List.mem_reverse]
    exact fun h ↦ by simpa using List.all_eq_true.1 List.all_takeWhile _ h
  · intro s
    have hhead := List.head?_dropWhile_not (· != '/') p.toList.reverse
    cases hd : p.toList.reverse.dropWhile (· != '/') with
    | nil => simp [names_empty]
    | cons c cs =>
      obtain rfl : c = '/' := by simpa [hd] using hhead
      have he : String.ofList ('/' :: cs).reverse = String.ofList cs.reverse ++ "/" := by
        rw [← String.toList_inj]
        simp
      rw [he, names_append_slash, names_concat_slash]

theorem length_extension_le (cs : List Char) : extensionLength cs ≤ cs.length := by
  have h := (cs.reverse.takeWhile_prefix (· != '.')).length_le
  simp only [extensionLength, List.length_reverse] at h ⊢
  split
  · omega
  · rename_i hne
    simp only [Bool.or_eq_true, beq_iff_eq, not_or] at hne
    omega

/-- Putting an ending in place of the last extension, or after a path, changes its last name. -/
theorem exists_stem (p : String) : ∃ d n m, p = d ++ n ∧ (splitExtension p).1 = d ++ m ∧
    '/' ∉ n.toList ∧ '/' ∉ m.toList ∧ ∀ s, names (d ++ s) = names d ++ names s := by
  obtain ⟨d, hp, hn, hd⟩ := exists_directory p
  have hk := length_extension_le (baseName p).toList
  let m := (baseName p).toList.take ((baseName p).toList.length - extensionLength (baseName p).toList)
  refine ⟨d, baseName p, String.ofList m, hp, ?_, hn, ?_, hd⟩
  · rw [← String.toList_inj]
    have hp' : p.toList = d.toList ++ (baseName p).toList := by rw [← String.toList_append, ← hp]
    simp only [splitExtension, String.toList_ofList, String.toList_append]
    rw [hp', List.length_append, Nat.add_sub_assoc hk, List.take_length_add_append]
  · simpa using fun h ↦ hn (List.mem_of_mem_take h)

theorem isAbsolute_directory {d n x : String} (hn : '/' ∉ n.toList) (hx : '/' ∉ x.toList) :
    isAbsolute (d ++ x) = isAbsolute (d ++ n) := by
  by_cases h : d = ""
  · simp [h, isAbsolute_eq_false hn, isAbsolute_eq_false hx]
  · rw [isAbsolute_append h, isAbsolute_append h]

theorem ending_of_mem (h : e ∈ [".ts", ".mts", ".cts"] ++ FileTree.moduleExtensions) :
    Ending e := by
  have hlast : ∀ e ∈ [".ts", ".mts", ".cts"] ++ FileTree.moduleExtensions,
      e.toList.getLast? = some 's' ∧ '/' ∉ e.toList := by decide
  exact ⟨(hlast e h).1, (hlast e h).2⟩

/-- A path to try for an import is the normalized specifier, or it has the name of a file instead of
the last name of this or after it. -/
theorem candidate_cases {specifier fromFile c : String}
    (h : c ∈ FileTree.moduleCandidates specifier fromFile) :
    ∃ b, Plain b ∧ (c = b ∨ ∃ ds x, ds <+: names b ∧ isName x = true ∧ names c = ds ++ [x] ∧
      isAbsolute c = isAbsolute b) := by
  let b := normalize (join (directory fromFile) specifier)
  obtain ⟨d, n, m, hb, hm, hn, hms, hd⟩ := exists_stem b
  refine ⟨b, plain_normalize _, ?_⟩
  have hext {x e : String} (hx : '/' ∉ x.toList) (he : Ending e) (hc : c = d ++ x ++ e) :
      ∃ ds y, ds <+: names b ∧ isName y = true ∧ names c = ds ++ [y] ∧
        isAbsolute c = isAbsolute b := by
    have hy := he.isName hx
    have hys := (isName_iff.1 hy).1
    refine ⟨names d, x ++ e, ?_, hy, ?_, ?_⟩
    · rw [hb, hd]
      exact List.prefix_append _ _
    · rw [hc, String.append_assoc, hd, names_of_isPart hys]
    · rw [hc, hb, String.append_assoc]
      exact isAbsolute_directory hn hys.2.2
  have hsources (hs : c ∈ [".ts", ".mts", ".cts"].map ((splitExtension b).1 ++ ·)) :
      ∃ ds y, ds <+: names b ∧ isName y = true ∧ names c = ds ++ [y] ∧
        isAbsolute c = isAbsolute b := by
    obtain ⟨e, he, rfl⟩ := List.mem_map.1 hs
    exact hext hms (ending_of_mem (List.mem_append_left _ he)) (by rw [hm])
  simp only [FileTree.moduleCandidates, List.mem_cons, List.mem_append] at h
  rcases h with ((rfl | h) | h) | h
  · exact .inl rfl
  · split at h
    · exact .inr (hsources h)
    · simp at h
  · obtain ⟨e, he, rfl⟩ := List.mem_map.1 h
    exact .inr (hext hn (ending_of_mem (List.mem_append_right _ he)) (by rw [← hb]))
  · obtain ⟨e, he, rfl⟩ := List.mem_map.1 h
    have hy := (ending_of_mem (List.mem_append_right _ he)).isName (s := "index") (by decide)
    have hya : isAbsolute ("index" ++ e) = false := isAbsolute_eq_false (isName_iff.1 hy).1.2.2
    refine .inr ⟨names b, "index" ++ e, List.prefix_rfl, hy, ?_, ?_⟩
    · rw [names_join, hya, names_of_isPart (isName_iff.1 hy).1]
      simp [b]
    · rw [isAbsolute_join (normalize_ne_empty _), hya, Bool.false_or]

theorem plain_candidate {specifier fromFile c : String}
    (h : c ∈ FileTree.moduleCandidates specifier fromFile) : Plain c := by
  obtain ⟨b, hb, rfl | ⟨ds, x, hp, hx, hn, ha⟩⟩ := candidate_cases h
  · exact hb
  · exact hb.of_prefix hp hx hn ha

end Path

end CommandCoverage
