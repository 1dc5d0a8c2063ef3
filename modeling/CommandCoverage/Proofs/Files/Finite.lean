import CommandCoverage.Proofs.Files.Walk
import Mathlib.Data.Set.Finite.List

namespace CommandCoverage

namespace Entry

mutual

/-- The names of the entries at all depths. -/
def names : Entry → List String
  | .directory es => es.map (·.1) ++ namesAll es
  | _ => []

def namesAll : List (String × Entry) → List String
  | [] => []
  | (_, e) :: es => e.names ++ namesAll es

end

structure Within (root e : Entry) : Prop where
  size : sizeOf e ≤ sizeOf root
  names : e.names ⊆ root.names

variable {root e d : Entry} {es : List (String × Entry)} {n : String}

theorem Within.refl (root : Entry) : Within root root := ⟨le_rfl, List.Subset.refl _⟩

theorem names_subset_of_mem (h : (n, e) ∈ es) : e.names ⊆ namesAll es := by
  induction es with
  | nil => simp at h
  | cons x es ih =>
    obtain ⟨m, d⟩ := x
    rcases List.mem_cons.1 h with h | h
    · obtain ⟨-, rfl⟩ := Prod.mk.inj h
      exact List.subset_append_left _ _
    · exact List.Subset.trans (ih h) (List.subset_append_right _ _)

theorem mem_of_lookup (h : es.lookup n = some e) : (n, e) ∈ es := by
  obtain ⟨before, after, rfl, -⟩ := List.lookup_eq_some_iff.1 h
  simp

theorem size_lt (h : (n, e) ∈ es) : sizeOf e < sizeOf (directory es) := by
  have := List.sizeOf_lt_of_mem h
  simp at this ⊢
  omega

theorem Within.child (h : Within root d) (hl : d.entries.lookup n = some e) :
    Within root e ∧ n ∈ root.names ∧ sizeOf e < sizeOf d := by
  cases d with
  | file => simp [entries] at hl
  | link => simp [entries] at hl
  | directory es =>
    have hm := mem_of_lookup hl
    have hlt := size_lt hm
    refine ⟨⟨(hlt.le).trans h.size, fun x hx ↦ h.names ?_⟩, h.names ?_, hlt⟩
    · exact List.mem_append_right _ (names_subset_of_mem hm hx)
    · exact List.mem_append_left _ (List.mem_map.2 ⟨_, hm, rfl⟩)

end Entry

namespace FileTree

open CommandCoverage.Path Entry

variable {root e : Entry} {p q : Place} {above : List Entry} {target : String}
  {ps ns rest : List String}

def PlaceIn (root : Entry) (p : Place) : Prop := ∀ e ∈ p.entry :: p.above, Within root e

def Step.In (root : Entry) : Step → Prop
  | .found q => PlaceIn root q
  | .missing => True
  | .linked above _ _ => PlaceIn root (placeOf above)

theorem PlaceIn.child {n : String} (h : PlaceIn root p) (hl : p.entry.entries.lookup n = some e) :
    PlaceIn root ⟨p.entry :: p.above, e⟩ :=
  List.forall_mem_cons.2 ⟨((h p.entry (by simp)).child hl).1, h⟩

theorem PlaceIn.advance (h : PlaceIn root p) (ps : List String) :
    (advance p ps).In root := by
  fun_induction FileTree.advance p ps with
  | case1 p => exact h
  | case2 => trivial
  | case3 p part rest _ _ ih => exact ih h
  | case4 p part rest _ _ _ _ ih => exact ih h
  | case5 p part rest _ _ _ d ds hp ih =>
    exact ih fun e he ↦ h e (by rw [hp]; exact List.mem_cons_of_mem _ he)
  | case6 => trivial
  | case7 => exact h
  | case8 p part rest _ _ _ e _ he ih => exact ih (h.child he)

def Step.Takes (root : Entry) (ns : List String) (bound : Nat) : Step → Prop
  | .found _ => ns.length ≤ bound ∧ ns ⊆ root.names
  | .missing => True
  | .linked _ _ rest => ∃ taken, ns = taken ++ rest ∧ taken.length ≤ bound ∧ taken ⊆ root.names

theorem Step.Takes.cons {s : Step} {n : String} {b c : Nat} (h : s.Takes root ns b)
    (hn : n ∈ root.names) (hb : b < c) : s.Takes root (n :: ns) c := by
  cases s with
  | found => exact ⟨Nat.le_trans (Nat.succ_le_succ h.1) hb, List.cons_subset.2 ⟨hn, h.2⟩⟩
  | missing => trivial
  | linked above target rest =>
    obtain ⟨taken, rfl, hlen, hsub⟩ := h
    exact ⟨n :: taken, rfl, Nat.le_trans (Nat.succ_le_succ hlen) hb, List.cons_subset.2 ⟨hn, hsub⟩⟩

theorem PlaceIn.takes (h : PlaceIn root p) (hn : ∀ n ∈ ns, isName n = true) :
    (FileTree.advance p ns).Takes root ns (sizeOf p.entry) := by
  induction ns generalizing p with
  | nil => simp [FileTree.advance, Step.Takes]
  | cons n ns ih =>
    obtain ⟨hn', hns⟩ := List.forall_mem_cons.1 hn
    obtain ⟨⟨h₁, h₂, -⟩, h₃⟩ := isName_iff.1 hn'
    by_cases hd : p.entry.isDirectory = true
    · cases hl : p.entry.entries.lookup n with
      | none =>
        simp [FileTree.advance, hd, h₁, h₂, h₃, -List.lookup_eq_none_iff, hl, Step.Takes]
      | some e =>
        obtain ⟨-, hmem, hlt⟩ := (h p.entry (by simp)).child hl
        by_cases he : ∃ target, e = .link target
        · obtain ⟨target, rfl⟩ := he
          have hstep : FileTree.advance p (n :: ns) = .linked (p.entry :: p.above) target ns := by
            simp [FileTree.advance, hd, h₁, h₂, h₃, hl]
          rw [hstep]
          exact ⟨[n], rfl, Nat.one_le_of_lt hlt, by simpa using hmem⟩
        · have hstep : FileTree.advance p (n :: ns) =
              FileTree.advance ⟨p.entry :: p.above, e⟩ ns := by
            cases e <;> simp_all [FileTree.advance]
          rw [hstep]
          exact (ih (h.child hl) hns).cons hmem hlt
    · simp [FileTree.advance, hd, Step.Takes]

def linkStart (root : Entry) (above : List Entry) (target : String) : Place :=
  if isAbsolute target then ⟨[], root⟩ else placeOf above

theorem PlaceIn.linkStart (h : PlaceIn root (placeOf above)) (target : String) :
    PlaceIn root (linkStart root above target) := by
  unfold FileTree.linkStart
  split
  · simpa [PlaceIn] using Within.refl root
  · exact h

theorem follow_cases {links : Nat} {r : Place} (h : follow root links p ps = some r) :
    advance p ps = .found r ∨ ∃ above target rest m, advance p ps = .linked above target rest ∧
      links = m + 1 ∧
        follow root m (linkStart root above target) (parts target ++ rest) = some r := by
  unfold follow at h
  cases hp : advance p ps with
  | found q => simpa [hp] using h
  | missing => simp [hp] at h
  | linked above target rest =>
    cases links with
    | zero => simp [hp] at h
    | succ m =>
      rw [hp] at h
      exact .inr ⟨above, target, rest, m, rfl, rfl, h⟩

/-- A way through so many links at most has a bounded number of names, all of the tree. -/
theorem follow_bounded {links : Nat} {r : Place} (hp : PlaceIn root p)
    (hn : ∀ n ∈ ns, isName n = true) (h : follow root links p (ps ++ ns) = some r) :
    ns.length ≤ (links + 1) * sizeOf root ∧ ns ⊆ root.names := by
  induction links using Nat.strong_induction_on generalizing p ps ns with
  | _ links ih =>
    have hin := hp.advance ps
    have happend := advance_append p ps ns
    cases hq : FileTree.advance p ps with
    | missing =>
      rw [hq, Step.after] at happend
      rcases follow_cases h with h | ⟨_, _, _, _, h, -⟩ <;> simp [happend] at h
    | found q =>
      rw [hq] at hin happend
      have htakes := hin.takes hn
      have hsize : sizeOf q.entry ≤ sizeOf root := (hin q.entry (by simp)).size
      rcases follow_cases h with ha | ⟨above, target, rest, m, ha, rfl, hf⟩
      · rw [happend, Step.after] at ha
        rw [ha] at htakes
        have hlen := htakes.1
        rw [Nat.succ_mul]
        exact ⟨by omega, htakes.2⟩
      · rw [happend, Step.after] at ha
        have habove := hin.advance ns
        rw [ha] at htakes habove
        obtain ⟨taken, rfl, hlen, hsub⟩ := htakes
        obtain ⟨hl, hs⟩ := ih m (by omega) (habove.linkStart target)
          (fun n hm ↦ hn n (List.mem_append_right _ hm)) hf
        rw [List.length_append, Nat.succ_mul]
        exact ⟨by omega, List.append_subset.2 ⟨hsub, hs⟩⟩
    | linked above target rest =>
      rw [hq] at hin happend
      rcases follow_cases h with ha | ⟨above', target', rest', m, ha, rfl, hf⟩
      · simp [happend, Step.after] at ha
      · rw [happend, Step.after] at ha
        obtain ⟨rfl, rfl, rfl⟩ := Step.linked.inj ha
        rw [← List.append_assoc] at hf
        obtain ⟨hl, hs⟩ := ih m (by omega) (hin.linkStart target) hn hf
        rw [Nat.succ_mul]
        exact ⟨by omega, hs⟩

theorem finite_lists {α : Type} {s : Set α} (hs : s.Finite) (n : Nat) :
    {l : List α | l.length ≤ n ∧ ∀ a ∈ l, a ∈ s}.Finite := by
  have := hs.to_subtype
  refine ((List.finite_length_le s n).image (List.map Subtype.val)).subset fun l ⟨hl, ha⟩ ↦ ?_
  exact ⟨l.attachWith _ ha, by simpa using hl, by simp⟩

theorem isName_of_mem_absolute {t : FileTree} {path n : String}
    (h : n ∈ names (t.absolute path)) : isName n = true := by
  refine isName_iff.2 ⟨isPart_of_mem_names h, ?_⟩
  rintro rfl
  refine (plain_normalize _).rooted ?_ h
  rw [isAbsolute_normalize, isAbsolute_join_root]

theorem finite_importable (t : FileTree) :
    {k | ∃ path, t.Importable path ∧ (t.get? (plainPath path)).isSome ∧
      t.absolute path = k}.Finite := by
  let ways := {ns : List String | ns.length ≤ (mostLinks + 1) * sizeOf t.root ∧
    ∀ n ∈ ns, n ∈ t.root.names}
  have hways : ways.Finite := finite_lists (List.finite_toSet _) _
  refine ((hways.image ("/" ++ "/".intercalate ·)).union
    (hways.image ("//" ++ "/".intercalate ·))).subset ?_
  rintro k ⟨path, hi, hs, rfl⟩
  have hmem : names (t.absolute path) ∈ ways := by
    rw [hi.get?_plainPath, Option.isSome_map] at hs
    obtain ⟨r, hr⟩ := Option.isSome_iff_exists.1 hs
    have htop : PlaceIn t.root t.top := by simpa [PlaceIn, top] using Within.refl t.root
    rw [← List.nil_append (Path.names _)] at hr
    exact follow_bounded htop (fun n hn ↦ isName_of_mem_absolute hn) hr
  obtain ⟨r, hr, he⟩ := absolute_eq t.workingDirectory path
  rw [FileTree.absolute] at hmem ⊢
  rcases List.mem_cons.1 hr with rfl | hr
  · exact .inl ⟨_, hmem, he.symm⟩
  · obtain rfl := List.mem_singleton.1 hr
    exact .inr ⟨_, hmem, he.symm⟩

end FileTree

end CommandCoverage
