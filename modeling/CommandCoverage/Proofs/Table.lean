import CommandCoverage.Table
import Mathlib.Data.List.Nodup
import Mathlib.Data.Set.Finite.List

namespace CommandCoverage

/-- Where no two entries have the same key, a key finds the entry that has it. -/
theorem find?_key_eq_some_iff {α β : Type} [BEq β] [LawfulBEq β] {key : α → β} {as : List α} {a : α}
    {k : β} (hu : (as.map key).Nodup) : as.find? (key · == k) = some a ↔ a ∈ as ∧ key a = k := by
  constructor
  · intro hf
    exact ⟨List.mem_of_find?_eq_some hf, by simpa using List.find?_some hf⟩
  · rintro ⟨ha, rfl⟩
    cases hf : as.find? (key · == key a) with
    | none => simpa using List.find?_eq_none.1 hf a ha
    | some b =>
      have hb : key b = key a := by simpa using List.find?_some hf
      rw [List.inj_on_of_nodup_map hu (List.mem_of_find?_eq_some hf) ha hb]

namespace Table

variable {α : Type} {j k : String} {a : α} {es : List (String × α)}

theorem lookup_cons_eq (x : String × α) (es : List (String × α)) (j : String) :
    (x :: es).lookup j = if j = x.1 then some x.2 else es.lookup j := by
  rw [List.lookup_cons]
  by_cases h : j = x.1
  · simp [h]
  · simp [h, show (j == x.1) = false by simpa using h]

theorem lookup_setIn : (setIn k a es).lookup j = if j = k then some a else es.lookup j := by
  induction es with
  | nil => simp [setIn, lookup_cons_eq]
  | cons x es ih =>
    obtain ⟨i, b⟩ := x
    simp only [setIn, beq_iff_eq]
    split
    · rename_i h
      subst h
      simp only [lookup_cons_eq]
      split <;> rfl
    · rename_i h
      simp only [lookup_cons_eq, ih]
      grind

theorem get?_set (t : Table α) : (t.set k a).get? j = if j = k then some a else t.get? j :=
  lookup_setIn

theorem mem_entries_of_get? {t : Table α} (h : t.get? k = some a) : (k, a) ∈ t.entries := by
  obtain ⟨before, after, he, -⟩ := List.lookup_eq_some_iff.1 h
  simp [he]

theorem setIn_of_not_mem (h : k ∉ es.map (·.1)) : setIn k a es = es ++ [(k, a)] := by
  induction es with
  | nil => rfl
  | cons x es ih =>
    obtain ⟨j, b⟩ := x
    rw [List.map_cons, List.mem_cons, not_or] at h
    rw [setIn, if_neg (by simpa using Ne.symm h.1), ih h.2, List.cons_append]

theorem keys_setIn : (setIn k a es).map (·.1) =
    if k ∈ es.map (·.1) then es.map (·.1) else es.map (·.1) ++ [k] := by
  induction es with
  | nil => rfl
  | cons x es ih =>
    obtain ⟨j, b⟩ := x
    rw [setIn]
    by_cases h : j = k
    · simp [h]
    · simp only [beq_iff_eq, h, if_false, List.map_cons, ih, List.mem_cons, Ne.symm h, false_or]
      split <;> rfl

theorem entries_foldl_set {xs : List (String × α)} {t : Table α}
    (h : (t.keys ++ xs.map (·.1)).Nodup) :
    (xs.foldl (fun t x ↦ t.set x.1 x.2) t).entries = t.entries ++ xs := by
  induction xs generalizing t with
  | nil => simp
  | cons x xs ih =>
    have hnew : x.1 ∉ t.entries.map (·.1) := by
      intro hx
      exact (List.nodup_append.1 h).2.2 x.1 hx x.1 List.mem_cons_self rfl
    have hset : (t.set x.1 x.2).entries = t.entries ++ [x] := setIn_of_not_mem hnew
    have hkeys : ((t.set x.1 x.2).keys ++ xs.map (·.1)).Nodup := by
      rw [keys, hset, List.map_append, List.append_assoc]
      exact h
    rw [List.foldl_cons, ih hkeys, hset, List.append_assoc, List.singleton_append]

theorem nodup_keys_foldl_set {xs : List (String × α)} {t : Table α} (h : t.keys.Nodup) :
    (xs.foldl (fun t x ↦ t.set x.1 x.2) t).keys.Nodup := by
  induction xs generalizing t with
  | nil => exact h
  | cons x xs ih =>
    refine ih ?_
    have hkeys : (t.set x.1 x.2).keys = if x.1 ∈ t.keys then t.keys else t.keys ++ [x.1] :=
      keys_setIn
    rw [hkeys]
    split
    · exact h
    · rename_i hx
      refine List.nodup_append.2 ⟨h, List.nodup_singleton _, ?_⟩
      intro k hk j hj
      rw [List.mem_singleton.1 hj]
      exact fun he ↦ hx (he ▸ hk)

theorem finite_gets (t : Table α) : {a | ∃ k, t.get? k = some a}.Finite := by
  refine t.values.finite_toSet.subset fun a ⟨k, h⟩ ↦ ?_
  exact List.mem_map_of_mem (f := Prod.snd) (mem_entries_of_get? h)

theorem finite_names (t : Table α) : {k | (t.get? k).isSome}.Finite := by
  refine t.keys.finite_toSet.subset fun k h ↦ ?_
  obtain ⟨a, ha⟩ := Option.isSome_iff_exists.1 h
  exact List.mem_map_of_mem (f := Prod.fst) (mem_entries_of_get? ha)

end Table

end CommandCoverage
