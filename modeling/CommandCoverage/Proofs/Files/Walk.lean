import CommandCoverage.Proofs.Files.Candidates
import CommandCoverage.Proofs.Files.Reading

namespace CommandCoverage.FileTree

open CommandCoverage.Path

variable {t : FileTree} {p q : Place} {qs kept : List String} {path : String}

theorem follow_congr {root : Entry} {links : Nat} {ps : List String}
    (h : advance p ps = advance q qs) : follow root links p ps = follow root links q qs := by
  unfold follow
  rw [h]

structure Walked (t : FileTree) (kept : List String) (p : Place) : Prop where
  names : ∀ s ∈ kept, isName s = true
  found : advance t.top kept.reverse = .found p
  directory : p.entry.isDirectory = true

theorem Walked.up {k : String} (h : t.Walked (k :: kept) p) :
    ∃ d ds, p.above = d :: ds ∧ t.Walked kept ⟨ds, d⟩ := by
  obtain ⟨hk, hkept⟩ := List.forall_mem_cons.1 h.names
  have hname := isName_iff.1 hk
  have hf := h.found
  rw [List.reverse_cons, advance_append] at hf
  cases hq : advance t.top kept.reverse with
  | missing => simp [hq, Step.after] at hf
  | linked above target rest => simp [hq, Step.after] at hf
  | found q =>
    rw [hq] at hf
    by_cases hd : q.entry.isDirectory
    · have hp : p.above = q.entry :: q.above := by
        simp only [Step.after, advance, hd, hname.1.1, hname.1.2.1, hname.2, String.isEmpty_iff,
          beq_iff_eq, Bool.not_true, Bool.false_eq_true, Bool.or_eq_true, or_self, if_false] at hf
        split at hf <;> simp_all
        rw [← hf]
      exact ⟨q.entry, q.above, hp, hkept, hq, hd⟩
    · simp [Step.after, advance, hd] at hf

/-- Parts that go up first lead on from a walk where the parts that are left of them lead from the
top. -/
theorem Walked.advance_eq (h : t.Walked kept p) (hu : UpsFirst qs) (hq : ∀ s ∈ qs, IsPart s) :
    advance p qs = advance t.top (normalizeParts true kept qs) := by
  induction qs generalizing kept p with
  | nil => simp [normalizeParts, h.found, advance]
  | cons s qs ih =>
    obtain ⟨hs, hq'⟩ := List.forall_mem_cons.1 hq
    have hu' : UpsFirst qs := (List.pairwise_cons.1 hu).2
    by_cases hd : s = ".."
    · subst hd
      cases kept with
      | nil =>
        obtain rfl : t.top = p := by simpa [advance] using h.found
        have hroot : t.root.isDirectory = true := h.directory
        have := ih h hu' hq'
        simpa [advance, normalizeParts, top, hroot] using this
      | cons k kept =>
        obtain ⟨d, ds, hp, hw⟩ := h.up
        have hk := (isName_iff.1 (h.names k (by simp))).2
        have := ih hw hu' hq'
        simpa [advance, normalizeParts, h.directory, hp, hk] using this
    · have hn : ".." ∉ s :: qs := by
        rw [List.mem_cons, not_or]
        exact ⟨Ne.symm hd, fun hm ↦ hd ((List.pairwise_cons.1 hu).1 ".." hm rfl)⟩
      rw [normalizeParts_of_not_mem hn hq, advance_append, h.found, Step.after]

def Importable (t : FileTree) (path : String) : Prop :=
  ∃ specifier fromFile, t.resolveModule specifier fromFile = some path

theorem Importable.candidate (h : t.Importable path) :
    Plain path ∧ ∃ bytes, t.get? path = some (.file bytes) := by
  obtain ⟨specifier, fromFile, h⟩ := h
  have hc : (moduleCandidates specifier fromFile).find? t.isFile = some path := by
    unfold resolveModule at h
    split at h <;> simp_all
  refine ⟨plain_candidate (List.mem_of_find?_eq_some hc), ?_⟩
  have hf := List.find?_some hc
  unfold isFile at hf
  cases he : t.get? path with
  | none => simp [he] at hf
  | some e => cases e <;> simp_all [Entry.isFile]

theorem isDirectory_of_start {root : Entry} {links : Nat} {s : String} {ps : List String}
    (h : follow root links p (s :: ps) ≠ none) : p.entry.isDirectory = true := by
  by_contra hd
  have ha : advance p (s :: ps) = .missing := by rw [advance, if_pos (by simpa using hd)]
  unfold follow at h
  rw [ha] at h
  exact h rfl

theorem Importable.exists_walked (h : t.Importable path) : ∃ p,
    t.Walked (if isAbsolute path then [] else t.workingDirectory.reverse) p ∧
    (if isAbsolute path then some t.top else t.here) = some p := by
  obtain ⟨hplain, bytes, hget⟩ := h.candidate
  obtain ⟨p, q, hp, hf, -⟩ := exists_follow hget
  obtain ⟨s, ps, hps⟩ := List.exists_cons_of_ne_nil (show parts path ≠ [] by simp [parts])
  have hd : p.entry.isDirectory = true := isDirectory_of_start (by rw [← hps, hf]; simp)
  refine ⟨p, ?_, hp⟩
  cases ha : isAbsolute path with
  | true =>
    obtain rfl : t.top = p := by simpa [ha] using hp
    exact ⟨by simp, rfl, hd⟩
  | false =>
    have hh : t.here = some p := by simpa [ha] using hp
    refine ⟨?_, ?_, hd⟩ <;> unfold here at hh <;> split at hh <;> simp_all

theorem Importable.exists_names (h : t.Importable path) :
    ∃ ns n, names path = ns ++ [n] ∧ isName n = true := by
  obtain ⟨-, bytes, hget⟩ := h.candidate
  exact exists_names_of_file hget

theorem Importable.names_absolute (h : t.Importable path) : ∃ kept p, t.Walked kept p ∧
    (if isAbsolute path then some t.top else t.here) = some p ∧
    names (t.absolute path) = normalizeParts true kept (names path) := by
  obtain ⟨p, hw, hp⟩ := h.exists_walked
  exact ⟨_, p, hw, hp, names_absolute_of_start hp⟩

theorem Importable.refusal?_plainPath (h : t.Importable path) :
    t.refusal? (plainPath path) = t.refusal? path := by
  obtain ⟨p, -, hp⟩ := h.exists_walked
  exact FileTree.refusal?_plainPath hp

theorem Importable.get?_plainPath (h : t.Importable path) : t.get? (plainPath path) =
    (follow t.root mostLinks t.top (names (t.absolute path))).map (·.entry) := by
  obtain ⟨kept, p, hw, hp, hnames⟩ := h.names_absolute
  obtain ⟨hplain, bytes, hget⟩ := h.candidate
  obtain ⟨ns, n, hns, hn⟩ := h.exists_names
  have hne : names path ≠ [] := by simp [hns]
  have hseen : t.get? (plainPath path) = t.standsAt (plainPath path) := by
    rw [get?, h.refusal?_plainPath]
    cases hr : t.refusal? path with
    | none => rfl
    | some r =>
      cases r with
      | look f => exact absurd hr ((get?_eq_some_iff.1 hget).2 f)
      | measure | permission | read => rfl
  have hadvance : advance p (parts (plainPath path)) = advance t.top (names (t.absolute path)) := by
    rw [hnames, ← hw.advance_eq hplain.upsFirst fun s hs ↦ isPart_of_mem_names hs,
      parts_plainPath hne]
    split
    · simp [advance, hw.directory]
    · rfl
  rw [hseen]
  simp only [standsAt, isAbsolute_plainPath, hp, Option.bind_some, String.isEmpty_iff,
    plainPath_ne_empty hne, if_false]
  rw [follow_congr hadvance]

theorem Importable.lastPart_absolute (h : t.Importable path) :
    lastPart (t.absolute path) = lastPart path := by
  obtain ⟨kept, p, -, -, hnames⟩ := h.names_absolute
  obtain ⟨ns, n, hns, hn⟩ := h.exists_names
  rw [lastPart, lastPart, hnames, hns, normalizeParts_concat hn]
  simp

end CommandCoverage.FileTree
