import CommandCoverage.Proofs.Cache.Queue

namespace CommandCoverage.ParseCache

open CacheKey

variable {T α : Type}

def see {β : Type} (x : β × ParseCache T α) : Observed β :=
  { answer := x.1, size := x.2.size, hits := x.2.hits, misses := x.2.misses }

section calls

variable [Sub T] [LT T] [DecidableLT T]

/-- What a cache does for a call about a source with a key. -/
def call (c : ParseCache T α) : CacheCall T α → Option α × ParseCache T α
  | .get a now => c.get now a.key
  | .set a v now => (none, c.set now a.key v)
  | .clear => (none, c.clear)

def attempt (s : Text.Surrogates) (c : ParseCache T α) :
    CacheCall T α → Except Text.EncodeFault (Option α) × ParseCache T α
  | .get a now => c.find s now (Path.absolute a.directory a.path) a.content
  | .set a v now =>
    (c.store s now (Path.absolute a.directory a.path) a.content v).map (·.map fun _ ↦ none) id
  | .clear => (.ok none, c.clear)

def course (s : Text.Surrogates) (c : ParseCache T α) (calls : List (CacheCall T α)) :
    List (Observed (Except Text.EncodeFault (Option α))) :=
  CacheCall.course (attempt s) see c calls

theorem attempt_eq {c : ParseCache T α} (he : c.enabled = true) (s : Text.Surrogates)
    (call : CacheCall T α) : c.attempt s call =
      match call.fault? s with
      | some f => (.error f, c)
      | none => (c.call call).map .ok id := by
  cases call with
  | get a now =>
    cases hf : CacheKey.fault? s (Path.absolute a.directory a.path) a.content <;>
      simp only [attempt, find, he, if_true, hf, ParseCache.call, Asked.key, Asked.fault?,
        CacheCall.fault?, CacheCall.asked?, Option.bind_some]
  | set a v now =>
    cases hf : CacheKey.fault? s (Path.absolute a.directory a.path) a.content <;>
      simp only [attempt, store, he, if_true, hf, ParseCache.call, Asked.key, Asked.fault?,
        CacheCall.fault?, CacheCall.asked?, Option.bind_some, Prod.map_apply, Except.map, id]
  | clear => rfl

end calls

def keyOf (source : Pair) : String := ofNormalized source.1 source.2

theorem key_eq_keyOf (a : Asked) : a.key = keyOf a.source := by
  rw [Asked.key, CacheKey.of, keyOf, Asked.source]

/-- What a cache has for a value that is kept. -/
def entry (x : Kept T α) : String × CacheEntry T α := (keyOf x.source, .parsed x.value x.setAt)

structure Holds (sources : Set Pair) (c : ParseCache T α) (q : SourceQueue T α) : Prop where
  enabled : c.enabled = true
  ttl : c.ttl = q.ttl
  maxSize : c.maxSize = q.maxSize
  entries : c.entries.entries = q.kept.map entry
  hits : c.hits = q.hits
  misses : c.misses = q.misses
  known : ∀ x ∈ q.kept, x.source ∈ sources
  bounded : q.Bounded

variable {sources : Set Pair} {source : Pair} {c : ParseCache T α} {q : SourceQueue T α}
  {kept : List (Kept T α)}

section keys

variable (hkeys : Set.InjOn keyOf sources) (hs : source ∈ sources)
  (hknown : ∀ x ∈ kept, x.source ∈ sources)

include hkeys hs hknown

theorem lookup_map_entry : (kept.map entry).lookup (keyOf source) =
    (kept.find? (·.source == source)).map fun x ↦ .parsed x.value x.setAt := by
  induction kept with
  | nil => rfl
  | cons x kept ih =>
    obtain ⟨hx, hknown⟩ := List.forall_mem_cons.1 hknown
    rw [List.map_cons, Table.lookup_cons_eq, ih hknown]
    by_cases he : x.source = source
    · rw [List.find?_cons_of_pos (by simpa using he), entry, he, if_pos rfl]
      rfl
    · have hkey : keyOf source ≠ keyOf x.source := fun h ↦ he (hkeys hs hx h).symm
      rw [List.find?_cons_of_neg (by simpa using he), entry, if_neg hkey]

theorem filter_map_entry : (kept.map entry).filter (·.1 != keyOf source) =
    (kept.filter (·.source != source)).map (entry (α := α)) := by
  rw [List.filter_map]
  refine congrArg (List.map entry) (List.filter_congr fun x hx ↦ Bool.eq_iff_iff.2 ?_)
  have hkey : keyOf x.source = keyOf source ↔ x.source = source :=
    ⟨fun h ↦ hkeys (hknown x hx) hs h, congrArg keyOf⟩
  simp [entry, hkey]

end keys

theorem makeRoom_map_entry (hfits : kept.length ≤ q.maxSize) :
    makeRoom q.maxSize (kept.map entry) =
      (if kept.length < q.maxSize then kept else kept.tail).map entry := by
  rw [makeRoom, List.length_map, ← List.map_drop]
  split
  · have hnone : kept.length + 1 - q.maxSize = 0 := by omega
    rw [hnone, List.drop_zero]
  · have hone : kept.length + 1 - q.maxSize = 1 := by omega
    rw [hone, List.drop_one]

theorem Holds.get? (h : Holds sources c q) (hkeys : Set.InjOn keyOf sources)
    (hs : source ∈ sources) : c.entries.get? (keyOf source) =
      (q.find? source).map fun x ↦ .parsed x.value x.setAt := by
  rw [Table.get?, h.entries]
  exact lookup_map_entry hkeys hs h.known

theorem Holds.erase (h : Holds sources c q) (hkeys : Set.InjOn keyOf sources)
    (hs : source ∈ sources) :
    (c.entries.erase (keyOf source)).entries = (q.others source).map entry := by
  rw [Table.erase, h.entries]
  exact filter_map_entry hkeys hs h.known

theorem Holds.set (h : Holds sources c q) (hkeys : Set.InjOn keyOf sources)
    (hs : source ∈ sources) (now : T) (v : α) :
    Holds sources (c.set now (keyOf source) v) (q.set now source v) := by
  have herase := h.erase hkeys hs
  have hroom := makeRoom_map_entry (h.bounded.length_others source)
  have hlast : (keyOf source, CacheEntry.parsed v now) = entry ⟨source, v, now⟩ := rfl
  have hknown : ∀ x ∈ (q.set now source v).kept, x.source ∈ sources := by
    intro x hx
    rcases h.bounded.mem_kept_set.1 hx with rfl | ⟨hx, -⟩
    · exact hs
    · exact h.known x hx
  generalize keyOf source = key at herase hlast ⊢
  rw [ParseCache.set, if_neg (by simp [h.enabled])]
  exact { h with
    entries := by
      simp only [herase, h.maxSize, hroom, hlast, SourceQueue.set, List.map_append,
        List.map_singleton]
    known := hknown
    bounded := h.bounded.set now source v }

theorem Holds.clear (h : Holds sources c q) : Holds sources c.clear q.clear :=
  { h with
    entries := rfl
    hits := rfl
    misses := rfl
    known := List.forall_mem_nil _
    bounded := h.bounded.clear }

theorem Holds.see_eq {β : Type} (h : Holds sources c q) (answer : β) :
    see (answer, c) = SourceQueue.see (answer, q) := by
  simp only [see, SourceQueue.see, size, h.entries, h.hits, h.misses, List.length_map]

section calls

variable [Sub T] [LT T] [DecidableLT T]

theorem Holds.get (h : Holds sources c q) (hkeys : Set.InjOn keyOf sources)
    (hs : source ∈ sources) (now : T) :
    (c.get now (keyOf source)).1 = (q.get now source).1 ∧
      Holds sources (c.get now (keyOf source)).2 (q.get now source).2 := by
  have hget := h.get? hkeys hs
  have herase := h.erase hkeys hs
  have hbounded := h.bounded.get now source
  -- From here on a key is only a text: what is in it need not be computed.
  generalize keyOf source = key at hget herase ⊢
  rw [ParseCache.get, if_neg (by simp [h.enabled]), hget]
  rw [SourceQueue.get] at hbounded ⊢
  cases hf : q.find? source with
  | none =>
    rw [hf] at hbounded
    exact ⟨rfl, { h with misses := congrArg (· + 1) h.misses, bounded := hbounded }⟩
  | some x =>
    have hfresh : c.isFresh now x.setAt = decide (now - x.setAt < q.ttl) := by rw [isFresh, h.ttl]
    rw [hf] at hbounded
    by_cases hage : now - x.setAt < q.ttl
    · simp only [hfresh, hage, if_true, Option.map_some] at hbounded ⊢
      exact ⟨rfl, { h with hits := congrArg (· + 1) h.hits, bounded := hbounded }⟩
    · simp only [hfresh, hage, if_false, Option.map_some] at hbounded ⊢
      exact ⟨rfl, { h with
        entries := herase
        misses := congrArg (· + 1) h.misses
        known := fun y hy ↦ h.known y (SourceQueue.mem_others.1 hy).1
        bounded := hbounded }⟩

/-- One call: it is answered alike, and the cache has what the queue keeps after it. -/
theorem Holds.call (h : Holds sources c q) (hkeys : Set.InjOn keyOf sources)
    {call : CacheCall T α} (hcall : ∀ a, call.asked? = some a → a.source ∈ sources) :
    (c.call call).1 = (q.call call).1 ∧ Holds sources (c.call call).2 (q.call call).2 := by
  cases call with
  | get a now =>
    rw [ParseCache.call, key_eq_keyOf]
    exact h.get hkeys (hcall a rfl) now
  | set a v now =>
    rw [ParseCache.call, key_eq_keyOf]
    exact ⟨rfl, h.set hkeys (hcall a rfl) now v⟩
  | clear => exact ⟨rfl, h.clear⟩

theorem Holds.attempt (h : Holds sources c q) (hkeys : Set.InjOn keyOf sources)
    {s : Text.Surrogates} {call : CacheCall T α}
    (hcall : call.fault? s = none → ∀ a, call.asked? = some a → a.source ∈ sources) :
    see (c.attempt s call) = SourceQueue.see (q.attempt s call) ∧
      Holds sources (c.attempt s call).2 (q.attempt s call).2 := by
  rw [attempt_eq h.enabled, SourceQueue.attempt]
  cases hf : call.fault? s with
  | some f => exact ⟨h.see_eq _, h⟩
  | none =>
    obtain ⟨hanswer, hnext⟩ := h.call hkeys (hcall hf)
    refine ⟨?_, hnext⟩
    calc see ((c.call call).map .ok id)
        = see (Except.ok (q.call call).1, (c.call call).2) := by rw [← hanswer]; rfl
      _ = SourceQueue.see ((q.call call).map .ok id) := hnext.see_eq _

end calls

theorem new_eq_ok_iff [LE T] [DecidableLE T] [OfNat T 0] {ttl : T} {maxSize : Int} {enabled : Bool} :
    ParseCache.new ttl maxSize enabled = .ok c ↔
      ¬ttl ≤ 0 ∧ 0 < maxSize.toNat ∧ c = { ttl, maxSize := maxSize.toNat, enabled } := by
  unfold ParseCache.new
  split
  · simp [*]
  · split
    · have hzero : maxSize.toNat = 0 := by omega
      simp [*]
    · have hpos : 0 < maxSize.toNat := by omega
      simp [*, eq_comm]

/-- What can be seen at each call of a cache is what can be seen of a queue keyed by the sources
exactly if each source has bytes, and so a key. A call about another one fails and changes nothing.
A look-up answers the value that was set last for its path and content, when nothing has ended its
stay and it is not too old, and nothing otherwise. -/
theorem course_eq_queue_iff [Sub T] [LT T] [DecidableLT T] [LE T] [DecidableLE T] [OfNat T 0]
    {ttl : T} {maxSize : Int} {c : ParseCache T α}
    (hc : ParseCache.new ttl maxSize true = .ok c) (s : Text.Surrogates)
    (calls : List (CacheCall T α))
    (hdigest : Set.InjOn digest (hashedOf (CacheCall.sources (CacheCall.keyed s calls)))) :
    let q : SourceQueue T α := { ttl, maxSize := maxSize.toNat }
    (c.course s calls = (q.course calls).map (·.map .ok) ↔
        ∀ call ∈ calls, call.fault? s = none) ∧
      ∀ before call after, calls = before ++ call :: after →
        ∃ o, (c.course s calls)[before.length]? = some o ∧ o.size ≤ maxSize.toNat ∧
          o.hits + o.misses = CacheCall.lookups (CacheCall.keyed s (before ++ [call])) ∧
          (∀ f, call.fault? s = some f →
            o = SourceQueue.see (.error f, q.after (CacheCall.keyed s before))) ∧
          ∀ a now, call = .get a now → call.fault? s = none →
            ∃ answer, o.answer = .ok answer ∧ ∀ v, answer = some v ↔
              ∃ setAt, q.Stays (CacheCall.keyed s before) ⟨a.source, v, setAt⟩ ∧
                now - setAt < ttl := by
  intro q
  obtain ⟨-, hpos, hnew⟩ := new_eq_ok_iff.1 hc
  have hq : q.Bounded := ⟨List.nodup_nil, Nat.zero_le _, hpos⟩
  have hkeys := injOn_ofNormalized hdigest
  have hstart : Holds (CacheCall.sources (CacheCall.keyed s calls)) c q := by
    rw [hnew]
    exact ⟨rfl, rfl, rfl, rfl, rfl, rfl, List.forall_mem_nil _, hq⟩
  have hcourse :
      c.course s calls = CacheCall.course (SourceQueue.attempt s) SourceQueue.see q calls :=
    CacheCall.course_eq (fun _ _ h call hcall ↦ h.attempt hkeys fun hf a ha ↦
      ⟨call, List.mem_filter.2 ⟨hcall, by rw [hf]; rfl⟩, a, ha, rfl⟩) hstart
  rw [hcourse]
  refine ⟨SourceQueue.attempts_eq_iff, ?_⟩
  rintro before call after rfl
  have hafter := SourceQueue.after_attempts s q before
  have hnow : ((q.after (CacheCall.keyed s before)).attempt s call).2 =
      q.after (CacheCall.keyed s (before ++ [call])) := by
    rw [← hafter, ← SourceQueue.after_attempts, List.foldl_append]
    rfl
  refine ⟨SourceQueue.see ((q.after (CacheCall.keyed s before)).attempt s call), ?_, ?_, ?_, ?_, ?_⟩
  · rw [CacheCall.getElem?_course, hafter]
  · have hfits := (hq.after (CacheCall.keyed s (before ++ [call]))).fits
    rw [(SourceQueue.limits_after q _).2, ← hnow] at hfits
    exact hfits
  · rw [← SourceQueue.hits_add_misses_after (q := q) rfl rfl, ← hnow]
    rfl
  · intro f hf
    rw [SourceQueue.attempt, hf]
  · rintro a now rfl hf
    rw [SourceQueue.attempt, hf]
    exact ⟨_, rfl, fun v ↦ SourceQueue.get_after_eq_some_iff hq rfl⟩

/-- Calls for two sources of which the same bytes are hashed, then for two paths of which the safe
forms are the same, and in between one for a path that has no bytes. -/
def colliding : List (CacheCall Int Nat) :=
  [.set joined 1 0, .set parted 2 1, .get joined 2, .get odd 2, .get parted 3, .set dashed 3 3,
    .get joined 4, .get underscored 4, .get dashed 5, .get parted 6]
where
  joined : Asked := ⟨"/", "a\x00b", "c"⟩
  parted : Asked := ⟨"/", "./a", "b\x00c"⟩
  odd : Asked := ⟨"/", "a\ue0ffb", "c"⟩
  dashed : Asked := ⟨"/", "a-b", ""⟩
  underscored : Asked := ⟨"/", "a_b", ""⟩

def oddByte : Text.Surrogates := fun c ↦ if c = '\ue0ff' then some 0xdcff else none

theorem course_eq_queue_iff_colliding :
    let c : ParseCache Int Nat := { ttl := 5, maxSize := 2 }
    let q : SourceQueue Int Nat := { ttl := 5, maxSize := 2 }
    let hashable := CacheCall.keyed oddByte colliding
    ParseCache.new 5 2 true = .ok c ∧
    Set.InjOn digest (hashedOf (CacheCall.sources hashable)) ∧
    c.course oddByte hashable = (q.course hashable).map (·.map .ok) ∧
    c.course oddByte colliding ≠ (q.course colliding).map (·.map .ok) ∧
    (q.course hashable).map (·.answer) =
      [none, none, some 1, some 2, none, none, none, some 3, none] := by
  intro c q hashable
  have hnew : ParseCache.new 5 2 true = .ok c := rfl
  let known : List Pair := (hashable.filterMap (·.asked?)).map (·.source)
  have hknown : ∀ x ∈ CacheCall.sources hashable, x ∈ known := by
    rintro x ⟨call, hcall, a, ha, rfl⟩
    exact List.mem_map_of_mem (List.mem_filterMap.2 ⟨call, hcall, ha⟩)
  -- The bytes of a text are read off its characters, which the kernel computes with.
  have hdigests : ∀ x ∈ known, ∀ y ∈ known,
      digest (hashed x.1 x.2) = digest (hashed y.1 y.2) → hashed x.1 x.2 = hashed y.1 y.2 := by
    simp only [hashed, Text.toList_toUTF8]
    decide +kernel
  have hdigest : Set.InjOn digest (hashedOf (CacheCall.sources hashable)) :=
    injOn_digest_of_known hknown hdigests
  have hkeyed : CacheCall.keyed oddByte hashable = hashable := by
    simp [hashable, CacheCall.keyed]
  have hfailing : ¬∀ call ∈ colliding, call.fault? oddByte = none := by
    decide +kernel
  refine ⟨hnew, hdigest, ?_, fun h ↦ hfailing ?_, ?_⟩
  · exact (course_eq_queue_iff hnew oddByte hashable (hkeyed.symm ▸ hdigest)).1.2 (by decide +kernel)
  · exact (course_eq_queue_iff hnew oddByte colliding hdigest).1.1 h
  · decide +kernel

theorem exists_course_ne_queue :
    let c : ParseCache Int Nat := { ttl := 5, maxSize := 2 }
    let q : SourceQueue Int Nat := { ttl := 5, maxSize := 2 }
    ∃ calls, Set.InjOn digest (hashedOf (CacheCall.sources (CacheCall.keyed oddByte calls))) ∧
      c.course oddByte calls ≠ (q.course calls).map (·.map .ok) := by
  intro c q
  refine ⟨[.get colliding.odd 0], ?_, fun h ↦ ?_⟩
  · have hnone : CacheCall.keyed oddByte [(.get colliding.odd 0 : CacheCall Int Nat)] = [] := by
      decide +kernel
    rw [hnone]
    rintro _ ⟨x, ⟨call, hcall, -⟩, -⟩
    cases hcall
  · have hanswers := congrArg (List.map (·.answer)) h
    revert hanswers
    decide +kernel

end CommandCoverage.ParseCache
