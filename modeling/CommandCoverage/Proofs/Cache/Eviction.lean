import CommandCoverage.Proofs.Cache.Refinement

namespace CommandCoverage

variable {T α : Type}

def CacheCall.reading? : CacheCall T α → Option T
  | .get _ now | .set _ _ now => some now
  | .clear => none

def CacheEntry.setAt? : CacheEntry T α → Option T
  | .parsed _ setAt => some setAt
  | .foreign => none

namespace ParseCache

def setTimes (es : List (String × CacheEntry T α)) : List T := es.filterMap (·.2.setAt?)

section calls

variable [Sub T] [LT T] [DecidableLT T]

def after (s : Text.Surrogates) (c : ParseCache T α) (calls : List (CacheCall T α)) :
    ParseCache T α :=
  calls.foldl (fun c call ↦ (c.attempt s call).2) c

/-- What a call may make of some entries. Setting a key that is there takes away its entry only; a
new key takes away the entry that was set earliest if there is no place left, and none otherwise.
Looking up a key takes away at most its entry, and this only if it is too old. -/
inductive Alters [LE T] (ttl : T) (limit : Nat) (es : List (String × CacheEntry T α)) :
    CacheCall T α → List (String × CacheEntry T α) → Prop
  | replaced {a : Asked} {v : α} {now : T} (h : a.key ∈ es.map (·.1)) :
      Alters ttl limit es (.set a v now) (es.filter (·.1 != a.key) ++ [(a.key, .parsed v now)])
  | added {a : Asked} {v : α} {now : T} (h : a.key ∉ es.map (·.1)) (hroom : es.length < limit) :
      Alters ttl limit es (.set a v now) (es ++ [(a.key, .parsed v now)])
  | evicted {a : Asked} {v w : α} {now earliest : T} {k : String}
      {rest : List (String × CacheEntry T α)} (h : a.key ∉ es.map (·.1)) (hfull : es.length = limit)
      (he : es = (k, .parsed w earliest) :: rest) (hearliest : ∀ t ∈ setTimes rest, earliest ≤ t) :
      Alters ttl limit es (.set a v now) (rest ++ [(a.key, .parsed v now)])
  | kept {a : Asked} {now : T} : Alters ttl limit es (.get a now) es
  | expired {a : Asked} {v : α} {now setAt : T} (h : (a.key, .parsed v setAt) ∈ es)
      (hage : ¬now - setAt < ttl) :
      Alters ttl limit es (.get a now) (es.filter (·.1 != a.key))
  | cleared : Alters ttl limit es .clear []

theorem limits_call (c : ParseCache T α) (call : CacheCall T α) :
    (c.call call).2.enabled = c.enabled ∧ (c.call call).2.ttl = c.ttl ∧
      (c.call call).2.maxSize = c.maxSize := by
  cases call with
  | get a now =>
    rw [ParseCache.call, ParseCache.get]
    split
    · exact ⟨rfl, rfl, rfl⟩
    · cases c.entries.get? a.key with
      | none => exact ⟨rfl, rfl, rfl⟩
      | some e =>
        cases e with
        | foreign => exact ⟨rfl, rfl, rfl⟩
        | parsed v setAt =>
          dsimp only
          split <;> exact ⟨rfl, rfl, rfl⟩
  | set a v now =>
    rw [ParseCache.call, ParseCache.set]
    split <;> exact ⟨rfl, rfl, rfl⟩
  | clear => exact ⟨rfl, rfl, rfl⟩

end calls

/-- Some entries that fit in a cache, under different keys, in the order in which they were set. -/
structure InOrder [LE T] (limit : Nat) (es : List (String × CacheEntry T α)) : Prop where
  fits : es.length ≤ limit
  nodup : (es.map (·.1)).Nodup
  parsed : ∀ e ∈ es, e.2.setAt?.isSome
  sorted : (setTimes es).Pairwise (· ≤ ·)

structure Orderly [LE T] (ttl : T) (limit : Nat) (c : ParseCache T α) : Prop where
  enabled : c.enabled = true
  ttl : c.ttl = ttl
  maxSize : c.maxSize = limit
  pos : 0 < limit
  inOrder : InOrder limit c.entries.entries

variable {c : ParseCache T α} {es es' : List (String × CacheEntry T α)} {call : CacheCall T α}
  {s : Text.Surrogates} {ttl now : T} {limit : Nat} {key : String} {v : α}

theorem setTimes_append : setTimes (es ++ es') = setTimes es ++ setTimes es' :=
  List.filterMap_append

theorem InOrder.sublist [LE T] (h : InOrder limit es) (hs : es'.Sublist es) : InOrder limit es' where
  fits := hs.length_le.trans h.fits
  nodup := h.nodup.sublist (hs.map _)
  parsed := fun e he ↦ h.parsed e (hs.subset he)
  sorted := h.sorted.sublist (hs.filterMap _)

theorem length_filter_lt_of_mem (hkey : key ∈ es.map (·.1)) :
    (es.filter (·.1 != key)).length < es.length := by
  obtain ⟨e, he, rfl⟩ := List.mem_map.1 hkey
  exact List.length_filter_lt_length_iff_exists.2 ⟨e, he, by simp⟩

theorem filter_of_not_mem (hkey : key ∉ es.map (·.1)) : es.filter (·.1 != key) = es :=
  List.filter_eq_self.2 fun e he ↦ by
    have hne : e.1 ≠ key := fun hk ↦ hkey (hk ▸ List.mem_map_of_mem he)
    simpa using hne

theorem makeRoom_of_length_lt (h : es.length < limit) : makeRoom limit es = es := by
  rw [makeRoom, Nat.sub_eq_zero_of_le h, List.drop_zero]

theorem InOrder.concat [LE T] (h : InOrder limit es) (hkey : key ∉ es.map (·.1))
    (hroom : es.length < limit)
    (hsorted : (setTimes (es ++ [(key, .parsed v now)])).Pairwise (· ≤ ·)) :
    InOrder limit (es ++ [(key, .parsed v now)]) where
  fits := by simpa using Nat.succ_le_of_lt hroom
  nodup := by
    rw [List.map_append]
    refine List.nodup_append.2 ⟨h.nodup, List.nodup_singleton _, ?_⟩
    intro k hk j hj hkj
    rw [hkj, List.mem_singleton.1 hj] at hk
    exact hkey hk
  parsed := by
    intro e he
    rcases List.mem_append.1 he with he | he
    · exact h.parsed e he
    · rw [List.mem_singleton.1 he]
      rfl
  sorted := hsorted

section steps

variable [Sub T] [LT T] [LE T]

theorem InOrder.alters_set (h : InOrder limit es) (hpos : 0 < limit) (a : Asked) (v : α) (now : T) :
    Alters ttl limit es (.set a v now)
      (makeRoom limit (es.filter (·.1 != a.key)) ++ [(a.key, .parsed v now)]) := by
  by_cases hkey : a.key ∈ es.map (·.1)
  · rw [makeRoom_of_length_lt ((length_filter_lt_of_mem hkey).trans_le h.fits)]
    exact .replaced hkey
  · rw [filter_of_not_mem hkey]
    rcases h.fits.lt_or_eq with hroom | hfull
    · rw [makeRoom_of_length_lt hroom]
      exact .added hkey hroom
    · have hone : es.length + 1 - limit = 1 := by omega
      rw [makeRoom, hone, List.drop_one]
      obtain ⟨⟨k, e⟩, rest, rfl⟩ := List.exists_cons_of_length_pos (hfull ▸ hpos)
      cases e with
      | foreign => cases h.parsed _ List.mem_cons_self
      | parsed w earliest => exact .evicted hkey hfull rfl (List.pairwise_cons.1 h.sorted).1

theorem Alters.setTimes_sublist (h : Alters ttl limit es call es') :
    (setTimes es').Sublist (setTimes es ++ call.reading?.toList) := by
  cases h with
  | replaced h =>
    rw [setTimes_append]
    exact (List.filter_sublist.filterMap _).append (List.Sublist.refl _)
  | added h hroom =>
    rw [setTimes_append]
    exact List.Sublist.refl _
  | evicted h hfull he =>
    subst he
    rw [setTimes_append]
    exact ((List.sublist_cons_self _ _).filterMap _).append (List.Sublist.refl _)
  | kept => exact List.sublist_append_left _ _
  | expired h hage => exact (List.filter_sublist.filterMap _).trans (List.sublist_append_left _ _)
  | cleared => exact List.nil_sublist _

theorem Alters.inOrder (h : Alters ttl limit es call es') (ho : InOrder limit es)
    (hclock : (setTimes es ++ call.reading?.toList).Pairwise (· ≤ ·)) : InOrder limit es' := by
  have hsorted := hclock.sublist h.setTimes_sublist
  cases h with
  | replaced h =>
    refine (ho.sublist List.filter_sublist).concat (by simp) ?_ hsorted
    exact (length_filter_lt_of_mem h).trans_le ho.fits
  | added h hroom => exact ho.concat h hroom hsorted
  | evicted h hfull he =>
    subst he
    refine (ho.sublist (List.sublist_cons_self _ _)).concat ?_ ?_ hsorted
    · exact fun hm ↦ h (List.mem_cons_of_mem _ hm)
    · rw [← hfull]
      exact Nat.lt_succ_self _
  | kept => exact ho
  | expired h hage => exact ho.sublist List.filter_sublist
  | cleared => exact ho.sublist (List.nil_sublist _)

end steps

section runs

variable [Sub T] [LT T] [DecidableLT T] [LE T]

theorem Orderly.alters (h : Orderly ttl limit c) (call : CacheCall T α) :
    Alters ttl limit c.entries.entries call (c.call call).2.entries.entries := by
  obtain ⟨hon, rfl, rfl, hpos, ho⟩ := h
  cases call with
  | get a now =>
    rw [ParseCache.call, ParseCache.get, if_neg (by simp [hon])]
    cases hk : c.entries.get? a.key with
    | none => exact .kept
    | some e =>
      have hmem := Table.mem_entries_of_get? hk
      cases e with
      | foreign => cases ho.parsed _ hmem
      | parsed v setAt =>
        by_cases hage : now - setAt < c.ttl
        · simp only [isFresh, hage, decide_true, if_true]
          exact .kept
        · simp only [isFresh, hage, decide_false]
          exact .expired hmem hage
  | set a v now =>
    rw [ParseCache.call, ParseCache.set, if_neg (by simp [hon])]
    exact ho.alters_set hpos a v now
  | clear => exact .cleared

theorem Orderly.after_call (h : Orderly ttl limit c) (call : CacheCall T α)
    (hclock : (setTimes c.entries.entries ++ call.reading?.toList).Pairwise (· ≤ ·)) :
    Orderly ttl limit (c.call call).2 := by
  obtain ⟨hon, httl, hsize⟩ := limits_call c call
  exact ⟨hon.trans h.enabled, httl.trans h.ttl, hsize.trans h.maxSize, h.pos,
    (h.alters call).inOrder h.inOrder hclock⟩

theorem Orderly.attempt_of_fault (h : Orderly ttl limit c) (hf : call.fault? s ≠ none) :
    (c.attempt s call).2 = c := by
  rw [attempt_eq h.enabled]
  obtain ⟨f, hf⟩ := Option.ne_none_iff_exists'.1 hf
  rw [hf]

theorem Orderly.attempt_of_key (h : Orderly ttl limit c) (hf : call.fault? s = none) :
    (c.attempt s call).2 = (c.call call).2 := by
  rw [attempt_eq h.enabled, hf]
  rfl

/-- A whole run: no later reading of the clock comes before the entries. -/
theorem Orderly.after (h : Orderly ttl limit c) (s : Text.Surrogates) (calls : List (CacheCall T α))
    (hclock : (setTimes c.entries.entries ++ calls.filterMap (·.reading?)).Pairwise (· ≤ ·)) :
    Orderly ttl limit (c.after s calls) := by
  induction calls generalizing c with
  | nil => exact h
  | cons call calls ih =>
    have hreadings : (call :: calls).filterMap (·.reading?) =
        call.reading?.toList ++ calls.filterMap (·.reading?) := by
      cases hr : call.reading? <;> simp [hr]
    rw [hreadings, ← List.append_assoc] at hclock
    have hcall := hclock.sublist (List.sublist_append_left _ _)
    rw [ParseCache.after, List.foldl_cons]
    by_cases hf : call.fault? s = none
    · rw [h.attempt_of_key hf]
      exact ih (h.after_call call hcall)
        (hclock.sublist ((h.alters call).setTimes_sublist.append_right _))
    · rw [h.attempt_of_fault hf]
      exact ih h (hclock.sublist ((List.sublist_append_left _ _).append_right _))

/-- At all times the entries are in order and fit, and a call takes away the entries that it has to
and no others. -/
theorem alters_of_clock [DecidableLE T] [OfNat T 0] {maxSize : Int}
    (hc : ParseCache.new ttl maxSize true = .ok c) (s : Text.Surrogates)
    (calls : List (CacheCall T α))
    (hclock : (calls.filterMap (·.reading?)).Pairwise (· ≤ ·)) :
    ∀ before after, calls = before ++ after →
      InOrder maxSize.toNat (c.after s before).entries.entries ∧
      ∀ call ∈ after.head?,
        (call.fault? s = none →
          Alters ttl maxSize.toNat (c.after s before).entries.entries call
            ((c.after s before).attempt s call).2.entries.entries) ∧
        (call.fault? s ≠ none → ((c.after s before).attempt s call).2 = c.after s before) := by
  obtain ⟨-, hpos, rfl⟩ := new_eq_ok_iff.1 hc
  rintro before after rfl
  have hstart : Orderly ttl maxSize.toNat
      ({ ttl, maxSize := maxSize.toNat, enabled := true } : ParseCache T α) :=
    ⟨rfl, rfl, rfl, hpos, Nat.zero_le _, List.nodup_nil, List.forall_mem_nil _, List.Pairwise.nil⟩
  have hbefore := hstart.after s before
    (hclock.sublist ((List.sublist_append_left before after).filterMap _))
  refine ⟨hbefore.inOrder, fun call _ ↦ ⟨fun hf ↦ ?_, hbefore.attempt_of_fault⟩⟩
  rw [hbefore.attempt_of_key hf]
  exact hbefore.alters call

/-- Three keys for two places: one is set anew, then the other one has to go, and the first is looked
up when it is too old. A path without a key stands between them. -/
def crowding : List (CacheCall Int Nat) :=
  [.set first 1 0, .set second 2 1, .set first 3 2, .set odd 5 2, .set third 4 2, .get second 3,
    .get first 7, .clear]
where
  odd : Asked := ⟨"/", "\ue0ff.ts", "1"⟩
  first : Asked := ⟨"/", "a.ts", "1"⟩
  second : Asked := ⟨"/", "b.ts", "2"⟩
  third : Asked := ⟨"/", "c.ts", "3"⟩

theorem alters_of_clock_crowding :
    let c : ParseCache Int Nat := { ttl := 5, maxSize := 2 }
    ParseCache.new 5 2 true = .ok c ∧ (crowding.filterMap (·.reading?)).Pairwise (· ≤ ·) ∧
    ∀ before after, crowding = before ++ after →
      InOrder 2 (c.after oddByte before).entries.entries ∧
      ∀ call ∈ after.head?,
        (call.fault? oddByte = none →
          Alters 5 2 (c.after oddByte before).entries.entries call
            ((c.after oddByte before).attempt oddByte call).2.entries.entries) ∧
        (call.fault? oddByte ≠ none →
          ((c.after oddByte before).attempt oddByte call).2 = c.after oddByte before) := by
  intro c
  have hnew : ParseCache.new 5 2 true = .ok c := rfl
  have hclock : (crowding.filterMap (·.reading?)).Pairwise (· ≤ ·) := by decide
  exact ⟨hnew, hclock, alters_of_clock hnew oddByte crowding hclock⟩

end runs

end ParseCache

end CommandCoverage
