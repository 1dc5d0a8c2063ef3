import CommandCoverage.Cache.Basic
import CommandCoverage.Proofs.Table

namespace CommandCoverage.ParseCache

variable {T α : Type} {c : ParseCache T α} {now : T} {k : String} {v : α}
  {e : String × CacheEntry T α}

/-- A cache that answers nothing for a key: it is off, or has no entry for the key. -/
def Lacks (c : ParseCache T α) (k : String) : Prop :=
  c.enabled = true → ∀ e ∈ c.entries.entries, e.1 ≠ k

section get

variable [Sub T] [LT T] [DecidableLT T]

theorem enabled_get : (c.get now k).2.enabled = c.enabled := by
  unfold get
  split
  · rfl
  · split <;> (try split) <;> rfl

theorem mem_entries_get (h : e ∈ (c.get now k).2.entries.entries) : e ∈ c.entries.entries := by
  unfold get at h
  split at h
  · exact h
  · split at h <;> (try split at h) <;> simp_all [Table.erase]

theorem lacks_get (h : (c.get now k).1 = none) : (c.get now k).2.Lacks k := by
  intro he e hm
  rw [enabled_get] at he
  unfold get at h hm
  simp only [he, Bool.not_true, Bool.false_eq_true, if_false] at h hm
  cases hk : c.entries.get? k with
  | none =>
    simp only [hk] at hm
    exact Ne.symm (by simpa using List.lookup_eq_none_iff.1 hk e hm)
  | some x =>
    cases x with
    | foreign => simp_all [Table.erase]
    | parsed v setAt =>
      simp only [hk] at h hm
      split at h <;> simp_all [Table.erase]

theorem get_of_lacks (h : c.Lacks k) : (c.get now k).1 = none := by
  unfold get
  split
  · rfl
  · rename_i he
    have hk : c.entries.get? k = none := by
      refine List.lookup_eq_none_iff.2 fun e hm ↦ ?_
      simpa using Ne.symm (h (by simpa using he) e hm)
    simp [hk]

theorem Lacks.get {j : String} (h : c.Lacks j) : (c.get now k).2.Lacks j := by
  intro he e hm
  rw [enabled_get] at he
  exact h he e (mem_entries_get hm)

end get

theorem enabled_set : (c.set now k v).enabled = c.enabled := by
  unfold set
  split <;> rfl

theorem mem_entries_set (h : e ∈ (c.set now k v).entries.entries) :
    e ∈ c.entries.entries ∨ c.enabled = true ∧ e.1 = k := by
  unfold set at h
  split at h
  · exact .inl h
  · rename_i he
    rcases List.mem_append.1 h with h | h
    · exact .inl (List.mem_filter.1 (List.mem_of_mem_drop h)).1
    · exact .inr ⟨by simpa using he, by simp_all⟩

theorem Lacks.set {j : String} (h : c.Lacks j) (hj : c.enabled = true → j ≠ k) :
    (c.set now k v).Lacks j := by
  intro he e hm
  rw [enabled_set] at he
  rcases mem_entries_set hm with hm | ⟨-, hk⟩
  · exact h he e hm
  · rw [hk]
    exact Ne.symm (hj he)

def Keeps (c : ParseCache T α) (good : String → α → Prop) : Prop :=
  ∀ k v setAt, (k, .parsed v setAt) ∈ c.entries.entries → good k v

section Keeps

variable {good : String → α → Prop}

theorem keeps_of_empty (h : c.entries.entries = []) : c.Keeps good := by
  intro k v setAt hm
  rw [h] at hm
  cases hm

theorem Keeps.get [Sub T] [LT T] [DecidableLT T] (h : c.Keeps good) (now : T) (k : String) :
    (c.get now k).2.Keeps good :=
  fun j v setAt hm ↦ h j v setAt (mem_entries_get hm)

theorem Keeps.good_of_get [Sub T] [LT T] [DecidableLT T] (h : c.Keeps good)
    (hg : (c.get now k).1 = some v) : good k v := by
  unfold ParseCache.get at hg
  split at hg
  · cases hg
  · split at hg
    · rename_i u setAt hk
      split at hg
      · obtain rfl := Option.some.inj hg
        exact h k u setAt (Table.mem_entries_of_get? hk)
      · cases hg
    · cases hg
    · cases hg

theorem Keeps.set (h : c.Keeps good) (now : T) (hv : good k v) : (c.set now k v).Keeps good := by
  intro j u setAt hm
  unfold ParseCache.set at hm
  split at hm
  · exact h j u setAt hm
  · rcases List.mem_append.1 hm with hm | hm
    · exact h j u setAt (List.mem_filter.1 (List.mem_of_mem_drop hm)).1
    · obtain ⟨rfl, he⟩ := Prod.mk.inj (List.mem_singleton.1 hm)
      obtain ⟨rfl, -⟩ := CacheEntry.parsed.inj he
      exact hv

theorem keeps_clear (c : ParseCache T α) (good : String → α → Prop) : c.clear.Keeps good :=
  keeps_of_empty rfl

end Keeps

theorem get_of_disabled [Sub T] [LT T] [DecidableLT T] (h : c.enabled = false) (now : T)
    (k : String) : c.get now k = (none, c) := by
  simp [get, h]

end CommandCoverage.ParseCache
