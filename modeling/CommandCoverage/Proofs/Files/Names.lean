import CommandCoverage.Path
import Mathlib.Data.List.Basic
import Mathlib.Data.String.Basic

namespace CommandCoverage.Path

variable {s a b p q : String} {l ss : List String}

def IsPart (s : String) : Prop := s ≠ "" ∧ s ≠ "." ∧ '/' ∉ s.toList

theorem isName_iff : isName s = true ↔ IsPart s ∧ s ≠ ".." := by
  simp [isName, IsPart]
  tauto

theorem parts_append_slash (a b : String) : parts (a ++ "/" ++ b) = parts a ++ parts b := by
  simp [parts, List.splitOn_append_cons_self]

theorem names_append_slash (a b : String) : names (a ++ "/" ++ b) = names a ++ names b := by
  simp [names, parts_append_slash]

theorem parts_eq_singleton (h : '/' ∉ s.toList) : parts s = [s] := by
  simp [parts, List.splitOn_eq_singleton h]

theorem names_empty : names "" = [] := rfl

theorem names_slash (b : String) : names ("/" ++ b) = names b := by
  simpa [names_empty] using names_append_slash "" b

theorem names_concat_slash (a : String) : names (a ++ "/") = names a := by
  simpa [names_empty] using names_append_slash a ""

theorem names_of_isPart (h : IsPart s) : names s = [s] := by
  simp [names, parts_eq_singleton h.2.2, h.1, h.2.1]

theorem parts_intercalate (hl : l ≠ []) (h : ∀ s ∈ l, '/' ∉ s.toList) :
    parts ("/".intercalate l) = l := by
  have hs : ∀ cs ∈ l.map String.toList, '/' ∉ cs := by simpa using h
  rw [parts, String.toList_intercalate, show "/".toList = ['/'] from rfl,
    List.splitOn_intercalate '/' hs (by simpa using hl)]
  simp

theorem names_intercalate (h : ∀ s ∈ l, IsPart s) : names ("/".intercalate l) = l := by
  by_cases hl : l = []
  · subst hl
    rfl
  · rw [names, parts_intercalate hl fun s hs ↦ (h s hs).2.2, List.filter_eq_self]
    intro s hs
    simp [(h s hs).1, (h s hs).2.1]

theorem not_mem_of_mem_splitOn {c : Char} {cs ds : List Char} (h : ds ∈ cs.splitOn c) : c ∉ ds := by
  induction cs generalizing ds with
  | nil => simp_all
  | cons d cs ih =>
    rw [List.splitOn_cons_eq_if_modifyHead] at h
    split at h
    · rcases List.mem_cons.1 h with rfl | h
      · simp
      · exact ih h
    · rename_i hd
      obtain ⟨e, es, he⟩ := List.exists_cons_of_ne_nil (List.splitOn_ne_nil c cs)
      rw [he, List.modifyHead_cons, List.mem_cons] at h
      rcases h with rfl | h
      · simpa [Ne.symm (by simpa using hd)] using ih (he ▸ List.mem_cons_self)
      · exact ih (he ▸ List.mem_cons_of_mem _ h)

theorem isPart_of_mem_names (h : s ∈ names p) : IsPart s := by
  obtain ⟨h, hs⟩ := List.mem_filter.1 h
  obtain ⟨cs, hc, rfl⟩ := List.mem_map.1 h
  refine ⟨by simpa using (Bool.and_eq_true_iff.1 hs).1,
    by simpa using (Bool.and_eq_true_iff.1 hs).2, ?_⟩
  simpa using not_mem_of_mem_splitOn hc

theorem isAbsolute_append (h : a ≠ "") : isAbsolute (a ++ b) = isAbsolute a := by
  have : a.toList ≠ [] := by simpa using h
  simp [isAbsolute, List.head?_append_of_ne_nil _ this]

theorem isAbsolute_eq_false (h : '/' ∉ s.toList) : isAbsolute s = false := by
  simp only [isAbsolute, beq_eq_false_iff_ne]
  exact fun hs ↦ h (List.mem_of_head? hs)

section normalize

variable {rooted : Bool} {kept : List String}

theorem normalizeParts_filter (rooted : Bool) (kept ss : List String) :
    normalizeParts rooted kept (ss.filter fun s ↦ !s.isEmpty && s != ".") =
      normalizeParts rooted kept ss := by
  fun_induction normalizeParts rooted kept ss with
  | case2 kept p ps h ih =>
    rw [List.filter_cons_of_neg (by simpa [or_iff_not_imp_left] using h), ih]
  | _ => simp_all [normalizeParts]

theorem mem_normalizeParts (h : s ∈ normalizeParts rooted kept ss) : s ∈ kept ∨ s ∈ ss := by
  fun_induction normalizeParts rooted kept ss <;> grind

theorem isPart_of_mem_normalizeParts (h : s ∈ normalizeParts rooted [] (parts p)) : IsPart s := by
  rw [← normalizeParts_filter] at h
  rcases mem_normalizeParts h with h | h
  · simp at h
  · exact isPart_of_mem_names h

def UpsFirst (ss : List String) : Prop := ss.Pairwise fun s t ↦ t = ".." → s = ".."

theorem upsFirst_concat : UpsFirst (ss ++ [s]) ↔ UpsFirst ss ∧ ∀ t ∈ ss, s = ".." → t = ".." := by
  simp [UpsFirst, List.pairwise_append]

theorem upsFirst_normalizeParts (h : UpsFirst kept.reverse) :
    UpsFirst (normalizeParts false kept ss) := by
  fun_induction normalizeParts false kept ss with
  | case1 => exact h
  | case2 kept p ps hp ih => exact ih h
  | case3 kept p ps hp hd ih =>
    refine ih ?_
    rw [List.reverse_cons, upsFirst_concat]
    exact ⟨h, by simp_all⟩
  | case4 p ps hp hd ih => exact ih (by simp [UpsFirst])
  | case5 p ps hp hd k ks hk ih =>
    obtain rfl : k = ".." := by simpa using hk
    refine ih ?_
    rw [List.reverse_cons, upsFirst_concat] at h ⊢
    refine ⟨by rwa [List.reverse_cons, upsFirst_concat], fun t ht _ ↦ ?_⟩
    rcases List.mem_append.1 (List.reverse_cons ▸ ht) with ht | ht
    · exact h.2 t ht rfl
    · simpa using ht
  | case6 p ps hp hd k ks hk ih =>
    rw [List.reverse_cons, upsFirst_concat] at h
    exact ih h.1

theorem dots_not_mem_normalizeParts (h : ".." ∉ kept) : ".." ∉ normalizeParts true kept ss := by
  fun_induction normalizeParts true kept ss <;> grind

theorem normalizeParts_of_not_mem (h : ".." ∉ ss) (hs : ∀ s ∈ ss, IsPart s) :
    normalizeParts rooted kept ss = kept.reverse ++ ss := by
  fun_induction normalizeParts rooted kept ss with
  | case1 => simp
  | case2 kept p ps hp ih => simp_all [IsPart]
  | _ => simp_all

theorem root_eq (p : String) :
    isAbsolute p = true ∧ (root p = "/" ∨ root p = "//") ∨ isAbsolute p = false ∧ root p = "" := by
  unfold isAbsolute root
  split <;> simp_all [List.head?_eq_some_iff]

theorem names_normalize (p : String) :
    names (normalize p) = normalizeParts (isAbsolute p) [] (parts p) := by
  have hbody : names ("/".intercalate (normalizeParts (isAbsolute p) [] (parts p))) = _ :=
    names_intercalate fun s hs ↦ isPart_of_mem_normalizeParts hs
  unfold normalize
  rcases root_eq p with ⟨ha, hr | hr⟩ | ⟨ha, hr⟩ <;> rw [ha] at hbody ⊢
  · simpa [hr, names_slash] using hbody
  · have htwo (b : String) : names ("//" ++ b) = names b := by
      rw [show ("//" : String) = "/" ++ "/" by rfl, String.append_assoc, names_slash, names_slash]
    simpa [hr, htwo] using hbody
  · by_cases he : ("/".intercalate (normalizeParts false [] (parts p))).isEmpty
    · rw [String.isEmpty_iff] at he
      rw [he, names_empty] at hbody
      simp [← hbody]
      rfl
    · simpa [he, hr] using hbody

theorem normalize_eq (h : isAbsolute p = true) :
    normalize p = root p ++ "/".intercalate (names (normalize p)) := by
  rw [names_normalize, normalize, h]
  simp

theorem isAbsolute_intercalate (h : ∀ s ∈ l, IsPart s) : isAbsolute ("/".intercalate l) = false := by
  cases l with
  | nil => rfl
  | cons s l =>
    have hs := h s (by simp)
    have hns := isAbsolute_eq_false hs.2.2
    cases l with
    | nil => simpa using hns
    | cons t l =>
      rw [String.intercalate_cons_cons, String.append_assoc, isAbsolute_append hs.1, hns]

theorem isAbsolute_normalize (p : String) : isAbsolute (normalize p) = isAbsolute p := by
  unfold normalize
  rcases root_eq p with ⟨ha, hr | hr⟩ | ⟨ha, hr⟩ <;> rw [ha]
  · simp [hr, isAbsolute_append, show isAbsolute "/" = true from rfl]
  · simp [hr, isAbsolute_append, show isAbsolute "//" = true from rfl]
  · have hbody : isAbsolute ("/".intercalate (normalizeParts false [] (parts p))) = false :=
      isAbsolute_intercalate fun s hs ↦ isPart_of_mem_normalizeParts hs
    by_cases he : ("/".intercalate (normalizeParts false [] (parts p))).isEmpty
    · simp [he, show isAbsolute "." = false from rfl]
    · simpa [he, hr] using hbody

theorem names_join (a b : String) :
    names (join a b) = if isAbsolute b then names b else names a ++ names b := by
  unfold join
  split
  · rfl
  · split
    · rename_i h
      rcases Bool.or_eq_true_iff.1 h with h | h
      · obtain rfl : a = "" := by simpa using h
        simp [names_empty]
      · obtain ⟨cs, hcs⟩ := List.getLast?_eq_some_iff.1 (by simpa using h)
        obtain rfl : a = String.ofList cs ++ "/" := by
          rw [← String.toList_inj, hcs]
          simp
        rw [names_append_slash, names_concat_slash]
    · exact names_append_slash a b

theorem isAbsolute_join (h : a ≠ "") (b : String) :
    isAbsolute (join a b) = (isAbsolute b || isAbsolute a) := by
  unfold join
  split
  · simp_all
  · rename_i hb
    split
    · simp [isAbsolute_append h, hb]
    · rw [String.append_assoc, isAbsolute_append h]
      simp [hb]

theorem normalize_ne_empty (p : String) : normalize p ≠ "" := by
  unfold normalize
  rcases root_eq p with ⟨ha, hr | hr⟩ | ⟨ha, hr⟩
  · simp [ha, hr]
  · simp [ha, hr]
  · simp only [ha, hr, Bool.not_false, Bool.true_and, String.empty_append]
    split <;> simp_all

theorem isAbsolute_join_root (directories : List String) (p : String) :
    isAbsolute (join ("/" ++ "/".intercalate directories) p) = true := by
  rw [isAbsolute_join (by simp), isAbsolute_append (by simp)]
  simp [show isAbsolute "/" = true from rfl]

theorem names_absolute_of_isAbsolute (h : isAbsolute p = true) (directories : List String) :
    names (absolute ("/" ++ "/".intercalate directories) p) = normalizeParts true [] (names p) := by
  rw [absolute, names_normalize, isAbsolute_join_root, ← normalizeParts_filter]
  refine congrArg _ ((names_join _ p).trans ?_)
  rw [if_pos h]

/-- The absolute form of a path is the way to it through the directories that it starts from. -/
theorem names_absolute {directories : List String} (hd : ∀ s ∈ directories, IsPart s)
    (h : isAbsolute p = false) : names (absolute ("/" ++ "/".intercalate directories) p) =
      normalizeParts true [] (directories ++ names p) := by
  rw [absolute, names_normalize, isAbsolute_join_root, ← normalizeParts_filter]
  refine congrArg _ ((names_join _ p).trans ?_)
  rw [if_neg (by simp [h]), names_slash, names_intercalate hd]

theorem normalizeParts_names_append (h : ∀ s ∈ ss, isName s = true) (qs : List String) :
    normalizeParts true kept (ss ++ qs) = normalizeParts true (ss.reverse ++ kept) qs := by
  induction ss generalizing kept with
  | nil => rfl
  | cons s ss ih =>
    obtain ⟨hs, hss⟩ := List.forall_mem_cons.1 h
    obtain ⟨hp, hd⟩ := isName_iff.1 hs
    simpa [normalizeParts, hp.1, hp.2.1, hd] using ih hss

theorem normalizeParts_concat (h : isName s = true) :
    normalizeParts true kept (ss ++ [s]) = normalizeParts true kept ss ++ [s] := by
  obtain ⟨hs, hd⟩ := isName_iff.1 h
  fun_induction normalizeParts true kept ss with
  | case1 kept => simp [normalizeParts, hs.1, hs.2.1, hd]
  | _ => simp_all [normalizeParts]

theorem absolute_eq (directories : List String) (p : String) :
    ∃ r ∈ ["/", "//"], absolute ("/" ++ "/".intercalate directories) p =
      r ++ "/".intercalate (names (absolute ("/" ++ "/".intercalate directories) p)) := by
  have hj := isAbsolute_join_root directories p
  refine ⟨_, ?_, normalize_eq hj⟩
  rcases root_eq (join ("/" ++ "/".intercalate directories) p) with ⟨-, h⟩ | ⟨h, -⟩
  · simpa using h
  · simp [h] at hj

end normalize

end CommandCoverage.Path
