import CommandCoverage.Proofs.Cache.Keys
import CommandCoverage.Proofs.Table
import Mathlib.Data.List.DropRight
import Mathlib.Data.List.Induction

namespace CommandCoverage

open CacheKey

structure Asked where
  directory : String
  path : String
  content : String

namespace Asked

/-- The path in normal form and the content. -/
def source (a : Asked) : Pair := (Path.normalize (Path.absolute a.directory a.path), a.content)

def key (a : Asked) : String := CacheKey.of (Path.absolute a.directory a.path) a.content

def fault? (s : Text.Surrogates) (a : Asked) : Option Text.EncodeFault :=
  CacheKey.fault? s (Path.absolute a.directory a.path) a.content

end Asked

inductive CacheCall (T α : Type) where
  | get (asked : Asked) (now : T)
  | set (asked : Asked) (value : α) (now : T)
  | clear

namespace CacheCall

variable {T α : Type}

def asked? : CacheCall T α → Option Asked
  | .get a _ | .set a _ _ => some a
  | .clear => none

def fault? (s : Text.Surrogates) (call : CacheCall T α) : Option Text.EncodeFault :=
  call.asked?.bind (·.fault? s)

def keyed (s : Text.Surrogates) (calls : List (CacheCall T α)) : List (CacheCall T α) :=
  calls.filter fun call ↦ (call.fault? s).isNone

def isGet : CacheCall T α → Bool
  | .get _ _ => true
  | _ => false

def isClear : CacheCall T α → Bool
  | .clear => true
  | _ => false

def sources (calls : List (CacheCall T α)) : Set Pair :=
  {x | ∃ call ∈ calls, ∃ a, call.asked? = some a ∧ a.source = x}

def lookups (calls : List (CacheCall T α)) : Nat :=
  (calls.rtakeWhile (!·.isClear)).countP (·.isGet)

theorem lookups_concat (calls : List (CacheCall T α)) (last : CacheCall T α) :
    lookups (calls ++ [last]) =
      if last.isClear then 0 else lookups calls + if last.isGet then 1 else 0 := by
  rw [lookups, List.rtakeWhile_concat]
  cases hc : last.isClear <;> simp [lookups]

end CacheCall

structure Kept (T α : Type) where
  source : Pair
  value : α
  setAt : T

structure SourceQueue (T α : Type) where
  ttl : T
  maxSize : Nat
  kept : List (Kept T α) := []
  hits : Nat := 0
  misses : Nat := 0

structure Observed (β : Type) where
  answer : β
  size : Nat
  hits : Nat
  misses : Nat

def Observed.map {β γ : Type} (f : β → γ) (o : Observed β) : Observed γ :=
  { o with answer := f o.answer }

namespace CacheCall

variable {T α β σ τ : Type} {call : σ → CacheCall T α → β × σ} {see : β × σ → Observed β}

def course (call : σ → CacheCall T α → β × σ) (see : β × σ → Observed β) (s : σ) :
    List (CacheCall T α) → List (Observed β)
  | [] => []
  | c :: cs => see (call s c) :: course call see (call s c).2 cs

theorem getElem?_course (s : σ) (before after : List (CacheCall T α)) (c : CacheCall T α) :
    (course call see s (before ++ c :: after))[before.length]? =
      some (see (call (before.foldl (fun s c ↦ (call s c).2) s) c)) := by
  induction before generalizing s with
  | nil => rfl
  | cons b before ih => exact ih _

/-- Two caches are seen alike when each call is seen alike and keeps what relates them. -/
theorem course_eq {call' : τ → CacheCall T α → β × τ} {see' : β × τ → Observed β}
    {R : σ → τ → Prop} {calls : List (CacheCall T α)} {s : σ} {t : τ}
    (hstep : ∀ s t, R s t → ∀ c ∈ calls,
      see (call s c) = see' (call' t c) ∧ R (call s c).2 (call' t c).2) (h : R s t) :
    course call see s calls = course call' see' t calls := by
  induction calls generalizing s t with
  | nil => rfl
  | cons c calls ih =>
    obtain ⟨hsee, hnext⟩ := hstep s t h c List.mem_cons_self
    rw [course, course, hsee,
      ih (fun s t hst c hc ↦ hstep s t hst c (List.mem_cons_of_mem _ hc)) hnext]

end CacheCall

namespace SourceQueue

variable {T α : Type}

def find? (q : SourceQueue T α) (source : Pair) : Option (Kept T α) :=
  q.kept.find? (·.source == source)

def others (q : SourceQueue T α) (source : Pair) : List (Kept T α) :=
  q.kept.filter (·.source != source)

section calls

variable [Sub T] [LT T] [DecidableLT T]

def get (q : SourceQueue T α) (now : T) (source : Pair) : Option α × SourceQueue T α :=
  match q.find? source with
  | none => (none, { q with misses := q.misses + 1 })
  | some x =>
    if now - x.setAt < q.ttl then (some x.value, { q with hits := q.hits + 1 })
    else (none, { q with kept := q.others source, misses := q.misses + 1 })

/-- Sets a source anew, at the end; when the queue is full the first one goes. -/
def set (q : SourceQueue T α) (now : T) (source : Pair) (v : α) : SourceQueue T α :=
  let others := q.others source
  { q with kept := (if others.length < q.maxSize then others else others.tail) ++ [⟨source, v, now⟩] }

def clear (q : SourceQueue T α) : SourceQueue T α := { q with kept := [], hits := 0, misses := 0 }

def call (q : SourceQueue T α) : CacheCall T α → Option α × SourceQueue T α
  | .get a now => q.get now a.source
  | .set a v now => (none, q.set now a.source v)
  | .clear => (none, q.clear)

def after (q : SourceQueue T α) (calls : List (CacheCall T α)) : SourceQueue T α :=
  calls.foldl (fun q call ↦ (q.call call).2) q

def see {β : Type} (x : β × SourceQueue T α) : Observed β :=
  { answer := x.1, size := x.2.kept.length, hits := x.2.hits, misses := x.2.misses }

def course (q : SourceQueue T α) (calls : List (CacheCall T α)) : List (Observed (Option α)) :=
  CacheCall.course call see q calls

def attempt (s : Text.Surrogates) (q : SourceQueue T α) (call : CacheCall T α) :
    Except Text.EncodeFault (Option α) × SourceQueue T α :=
  match call.fault? s with
  | some f => (.error f, q)
  | none => (q.call call).map .ok id

inductive Ends (q : SourceQueue T α) (source : Pair) (setAt : T) : CacheCall T α → Prop
  | cleared : Ends q source setAt .clear
  | replaced {a : Asked} {v : α} {now : T} : a.source = source → Ends q source setAt (.set a v now)
  | expired {a : Asked} {now : T} : a.source = source → ¬now - setAt < q.ttl →
      Ends q source setAt (.get a now)
  | evicted {a : Asked} {v : α} {now : T} {x : Kept T α} {rest : List (Kept T α)} :
      q.others a.source = x :: rest → x.source = source → q.maxSize ≤ rest.length + 1 →
      Ends q source setAt (.set a v now)

/-- After some calls the last `set` for a source was that of a value at a time, and no call since
then has ended the stay of the value. -/
def Stays (q : SourceQueue T α) (calls : List (CacheCall T α)) (x : Kept T α) : Prop :=
  ∃ earlier a since, calls = earlier ++ .set a x.value x.setAt :: since ∧ a.source = x.source ∧
    ∀ seen call rest, since = seen ++ call :: rest →
      ¬(q.after (earlier ++ .set a x.value x.setAt :: seen)).Ends x.source x.setAt call

end calls

structure Bounded (q : SourceQueue T α) : Prop where
  nodup : (q.kept.map (·.source)).Nodup
  fits : q.kept.length ≤ q.maxSize
  pos : 0 < q.maxSize

variable {q : SourceQueue T α} {source : Pair} {now : T} {v : α} {x : Kept T α}
  {last : CacheCall T α} {calls : List (CacheCall T α)}

theorem mem_others : x ∈ q.others source ↔ x ∈ q.kept ∧ x.source ≠ source := by
  rw [others, List.mem_filter, bne_iff_ne]

theorem Bounded.nodup_others (h : q.Bounded) (source : Pair) :
    ((q.others source).map (·.source)).Nodup :=
  h.nodup.sublist (List.filter_sublist.map _)

theorem Bounded.length_others (h : q.Bounded) (source : Pair) :
    (q.others source).length ≤ q.maxSize :=
  (List.length_filter_le _ _).trans h.fits

theorem Bounded.find?_eq_some_iff (h : q.Bounded) :
    q.find? source = some x ↔ x ∈ q.kept ∧ x.source = source :=
  find?_key_eq_some_iff h.nodup

theorem Bounded.mem_kept_set (h : q.Bounded) : x ∈ (q.set now source v).kept ↔
    x = ⟨source, v, now⟩ ∨ x ∈ q.kept ∧ x.source ≠ source ∧
      ∀ y rest, q.others source = y :: rest → y.source = x.source → rest.length + 1 < q.maxSize := by
  have hu := h.nodup_others source
  rw [set, List.mem_append, List.mem_singleton, or_comm, ← and_assoc, ← mem_others]
  refine or_congr_right ?_
  split
  · rename_i hlt
    refine ⟨fun hx ↦ ⟨hx, fun y rest he _ ↦ ?_⟩, And.left⟩
    rwa [he] at hlt
  · rename_i hfull
    cases ho : q.others source with
    | nil => simp
    | cons y rest =>
      rw [ho, List.map_cons, List.nodup_cons] at hu
      rw [ho, List.length_cons] at hfull
      rw [List.tail_cons, List.mem_cons]
      -- The first of the others goes; by `hu` nothing else is kept for its source.
      constructor
      · intro hx
        refine ⟨.inr hx, fun y' rest' he hs ↦ ?_⟩
        obtain ⟨rfl, rfl⟩ := List.cons.inj he
        exact absurd (List.mem_map.2 ⟨x, hx, hs.symm⟩) hu.1
      · rintro ⟨rfl | hx, hroom⟩
        · exact absurd (hroom x rest rfl rfl) hfull
        · exact hx

theorem Bounded.set (h : q.Bounded) (now : T) (source : Pair) (v : α) :
    (q.set now source v).Bounded := by
  have hroom : (if (q.others source).length < q.maxSize then q.others source
      else (q.others source).tail).Sublist (q.others source) := by
    split
    · exact List.Sublist.refl _
    · exact List.tail_sublist _
  refine ⟨?_, ?_, h.pos⟩
  · rw [SourceQueue.set, List.map_append]
    refine List.nodup_append.2
      ⟨(h.nodup_others source).sublist (hroom.map _), List.nodup_singleton _, ?_⟩
    rintro s hs s' hs' rfl
    obtain ⟨y, hy, rfl⟩ := List.mem_map.1 hs
    exact (mem_others.1 (hroom.subset hy)).2 (List.mem_singleton.1 hs')
  · have hpos := h.pos
    have hlength := h.length_others source
    simp only [SourceQueue.set, List.length_append, List.length_singleton]
    split
    · omega
    · rw [List.length_tail]
      omega

theorem Bounded.clear (h : q.Bounded) : q.clear.Bounded :=
  ⟨List.nodup_nil, Nat.zero_le _, h.pos⟩

section calls

variable [Sub T] [LT T] [DecidableLT T]

theorem limits_call (q : SourceQueue T α) (call : CacheCall T α) :
    (q.call call).2.ttl = q.ttl ∧ (q.call call).2.maxSize = q.maxSize := by
  cases call with
  | get a now =>
    simp only [SourceQueue.call, get]
    split
    · exact ⟨rfl, rfl⟩
    · split <;> exact ⟨rfl, rfl⟩
  | set a v now => exact ⟨rfl, rfl⟩
  | clear => exact ⟨rfl, rfl⟩

theorem Bounded.mem_kept_get (h : q.Bounded) : x ∈ (q.get now source).2.kept ↔
    x ∈ q.kept ∧ (x.source = source → now - x.setAt < q.ttl) := by
  rw [get]
  cases hf : q.find? source with
  | none =>
    have hnew : x ∈ q.kept → x.source ≠ source := by
      rintro hx rfl
      rw [h.find?_eq_some_iff.2 ⟨hx, rfl⟩] at hf
      cases hf
    exact ⟨fun hx ↦ ⟨hx, fun hs ↦ absurd hs (hnew hx)⟩, And.left⟩
  | some y =>
    obtain ⟨hy, hs⟩ := h.find?_eq_some_iff.1 hf
    have hsame : x ∈ q.kept → x.source = source → x = y := by
      intro hx he
      exact List.inj_on_of_nodup_map h.nodup hx hy (he.trans hs.symm)
    by_cases hfresh : now - y.setAt < q.ttl
    · simp only [hfresh, if_true]
      refine ⟨fun hx ↦ ⟨hx, fun he ↦ ?_⟩, And.left⟩
      rwa [hsame hx he]
    · simp only [hfresh, if_false]
      rw [mem_others]
      refine and_congr_right fun hx ↦ ⟨fun hne he ↦ absurd he hne, fun himp he ↦ ?_⟩
      exact hfresh (hsame hx he ▸ himp he)

/-- One call: what is kept after it is what it sets, or was kept before and has not ended. -/
theorem Bounded.mem_kept_call (h : q.Bounded) : x ∈ (q.call last).2.kept ↔
    (∃ a, last = .set a x.value x.setAt ∧ a.source = x.source) ∨
      x ∈ q.kept ∧ ¬q.Ends x.source x.setAt last := by
  cases last with
  | get a now =>
    rw [SourceQueue.call, h.mem_kept_get]
    constructor
    · rintro ⟨hx, hfresh⟩
      refine .inr ⟨hx, ?_⟩
      rintro (_ | _ | ⟨hs, hold⟩)
      exact hold (hfresh hs.symm)
    · rintro (⟨b, hb, -⟩ | ⟨hx, hends⟩)
      · cases hb
      · exact ⟨hx, fun hs ↦ not_not.1 fun hold ↦ hends (.expired hs.symm hold)⟩
  | set a v now =>
    rw [SourceQueue.call, h.mem_kept_set]
    refine or_congr ?_ (and_congr_right fun hx ↦ ?_)
    · constructor
      · rintro rfl
        exact ⟨a, rfl, rfl⟩
      · rintro ⟨b, hb, hs⟩
        obtain ⟨rfl, rfl, rfl⟩ := CacheCall.set.inj hb
        obtain ⟨s, w, t⟩ := x
        obtain rfl := hs
        rfl
    · constructor
      · rintro ⟨hne, hroom⟩ hends
        cases hends with
        | replaced hs => exact hne hs.symm
        | evicted ho hs hfull => exact absurd (hroom _ _ ho hs) (not_lt.2 hfull)
      · intro hends
        refine ⟨fun hs ↦ hends (.replaced hs.symm), fun y rest ho hs ↦ ?_⟩
        exact not_le.1 fun hfull ↦ hends (.evicted ho hs hfull)
  | clear =>
    constructor
    · intro hx
      cases hx
    · rintro (⟨b, hb, -⟩ | ⟨-, hends⟩)
      · cases hb
      · exact absurd .cleared hends

theorem Bounded.get (h : q.Bounded) (now : T) (source : Pair) : (q.get now source).2.Bounded := by
  unfold SourceQueue.get
  split
  · exact ⟨h.nodup, h.fits, h.pos⟩
  · split
    · exact ⟨h.nodup, h.fits, h.pos⟩
    · exact ⟨h.nodup_others source, h.length_others source, h.pos⟩

theorem Bounded.call (h : q.Bounded) (call : CacheCall T α) : (q.call call).2.Bounded := by
  cases call with
  | get a now => exact h.get now a.source
  | set a v now => exact h.set now a.source v
  | clear => exact h.clear

theorem after_concat (q : SourceQueue T α) (calls : List (CacheCall T α)) (call : CacheCall T α) :
    q.after (calls ++ [call]) = ((q.after calls).call call).2 := by
  rw [after, List.foldl_append]
  rfl

theorem Bounded.after (h : q.Bounded) (calls : List (CacheCall T α)) : (q.after calls).Bounded := by
  induction calls using List.reverseRecOn with
  | nil => exact h
  | append_singleton calls call ih =>
    rw [after_concat]
    exact ih.call call

theorem limits_after (q : SourceQueue T α) (calls : List (CacheCall T α)) :
    (q.after calls).ttl = q.ttl ∧ (q.after calls).maxSize = q.maxSize := by
  induction calls using List.reverseRecOn with
  | nil => exact ⟨rfl, rfl⟩
  | append_singleton calls call ih =>
    obtain ⟨httl, hsize⟩ := limits_call (q.after calls) call
    rw [after_concat]
    exact ⟨httl.trans ih.1, hsize.trans ih.2⟩

theorem stays_concat : q.Stays (calls ++ [last]) x ↔
    (∃ a, last = .set a x.value x.setAt ∧ a.source = x.source) ∨
      q.Stays calls x ∧ ¬(q.after calls).Ends x.source x.setAt last := by
  constructor
  -- The last call is the `set` itself, or one of those since then.
  · rintro ⟨earlier, a, since, he, hs, hstay⟩
    rcases since.eq_nil_or_concat' with rfl | ⟨since, call, rfl⟩
    · obtain ⟨rfl, hcall⟩ := List.append_inj' he rfl
      exact .inl ⟨a, (List.cons.inj hcall).1, hs⟩
    · rw [← List.cons_append, ← List.append_assoc] at he
      obtain ⟨rfl, hcall⟩ := List.append_inj' he rfl
      obtain rfl := (List.cons.inj hcall).1
      refine .inr ⟨⟨earlier, a, since, rfl, hs, fun seen c rest hsince ↦ ?_⟩, hstay since _ [] rfl⟩
      exact hstay seen c (rest ++ [last]) (by rw [hsince]; simp)
  · rintro (⟨a, rfl, hs⟩ | ⟨⟨earlier, a, since, rfl, hs, hstay⟩, hends⟩)
    · exact ⟨calls, a, [], rfl, hs, fun seen c rest h ↦ by simp at h⟩
    · refine ⟨earlier, a, since ++ [last], by simp, hs, fun seen c rest hsince ↦ ?_⟩
      rcases rest.eq_nil_or_concat' with rfl | ⟨rest, call, rfl⟩
      · obtain ⟨rfl, hcall⟩ := List.append_inj' hsince rfl
        obtain rfl := (List.cons.inj hcall).1
        exact hends
      · rw [← List.cons_append, ← List.append_assoc] at hsince
        obtain ⟨rfl, -⟩ := List.append_inj' hsince rfl
        exact hstay seen c rest rfl

theorem mem_kept_after_iff (h : q.Bounded) (hq : q.kept = []) (calls : List (CacheCall T α)) :
    x ∈ (q.after calls).kept ↔ q.Stays calls x := by
  induction calls using List.reverseRecOn with
  | nil =>
    rw [after, List.foldl_nil, hq]
    constructor
    · intro hx
      cases hx
    · rintro ⟨earlier, a, since, he, -⟩
      simp at he
  | append_singleton calls call ih =>
    rw [after_concat, (h.after calls).mem_kept_call, ih, stays_concat]

theorem get_eq_some_iff : (q.get now source).1 = some v ↔
    ∃ x, q.find? source = some x ∧ x.value = v ∧ now - x.setAt < q.ttl := by
  rw [get]
  cases q.find? source with
  | none => simp
  | some x =>
    by_cases hfresh : now - x.setAt < q.ttl <;> simp [hfresh]

/-- A look-up answers the value that was set last for the source, if it has stayed and is not too
old. -/
theorem get_after_eq_some_iff (h : q.Bounded) (hq : q.kept = []) :
    ((q.after calls).get now source).1 = some v ↔
      ∃ setAt, q.Stays calls ⟨source, v, setAt⟩ ∧ now - setAt < q.ttl := by
  have hfind (x : Kept T α) :
      (q.after calls).find? source = some x ↔ q.Stays calls x ∧ x.source = source := by
    rw [(h.after calls).find?_eq_some_iff, mem_kept_after_iff h hq]
  rw [get_eq_some_iff, (limits_after q calls).1]
  constructor
  · rintro ⟨x, hx, rfl, hfresh⟩
    obtain ⟨hstays, rfl⟩ := (hfind x).1 hx
    exact ⟨x.setAt, hstays, hfresh⟩
  · rintro ⟨setAt, hstays, hfresh⟩
    exact ⟨_, (hfind _).2 ⟨hstays, rfl⟩, rfl, hfresh⟩

theorem hits_add_misses_call (q : SourceQueue T α) (call : CacheCall T α) :
    (q.call call).2.hits + (q.call call).2.misses =
      if call.isClear then 0 else q.hits + q.misses + if call.isGet then 1 else 0 := by
  cases call with
  | get a now =>
    simp only [SourceQueue.call, get, CacheCall.isClear, CacheCall.isGet, Bool.false_eq_true,
      if_false, if_true]
    split
    · exact (Nat.add_assoc ..).symm
    · split
      · exact Nat.add_right_comm ..
      · exact (Nat.add_assoc ..).symm
  | set a v now => rfl
  | clear => rfl

theorem hits_add_misses_after (hh : q.hits = 0) (hm : q.misses = 0) (calls : List (CacheCall T α)) :
    (q.after calls).hits + (q.after calls).misses = CacheCall.lookups calls := by
  induction calls using List.reverseRecOn with
  | nil => simp [after, hh, hm, CacheCall.lookups]
  | append_singleton calls last ih =>
    rw [after_concat, hits_add_misses_call, CacheCall.lookups_concat, ih]

theorem after_attempts (s : Text.Surrogates) (q : SourceQueue T α) (calls : List (CacheCall T α)) :
    calls.foldl (fun q call ↦ (q.attempt s call).2) q = q.after (CacheCall.keyed s calls) := by
  induction calls generalizing q with
  | nil => rfl
  | cons call calls ih =>
    rw [List.foldl_cons, ih, attempt, CacheCall.keyed, CacheCall.keyed]
    cases hf : call.fault? s with
    | none => rw [List.filter_cons_of_pos (by rw [hf]; rfl), after, after, List.foldl_cons]; rfl
    | some f => rw [List.filter_cons_of_neg (by rw [hf]; simp)]

theorem attempts_eq_iff {s : Text.Surrogates} {q : SourceQueue T α} {calls : List (CacheCall T α)} :
    CacheCall.course (attempt s) see q calls = (q.course calls).map (·.map .ok) ↔
      ∀ call ∈ calls, call.fault? s = none := by
  induction calls generalizing q with
  | nil => exact iff_of_true rfl nofun
  | cons call calls ih =>
    rw [CacheCall.course, course, CacheCall.course, List.map_cons, List.cons.injEq,
      List.forall_mem_cons]
    cases hf : call.fault? s with
    | none =>
      have hcall : q.attempt s call = (q.call call).map .ok id := by rw [attempt, hf]
      rw [hcall]
      exact and_congr (iff_of_true rfl rfl) ih
    | some f =>
      have hcall : q.attempt s call = (.error f, q) := by rw [attempt, hf]
      rw [hcall]
      refine iff_of_false (fun h ↦ ?_) (fun h ↦ Option.some_ne_none f h.1)
      cases congrArg Observed.answer h.1

end calls

end SourceQueue

end CommandCoverage
