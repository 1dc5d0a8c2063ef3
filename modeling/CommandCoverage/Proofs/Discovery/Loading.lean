import CommandCoverage.Discovery.Session
import CommandCoverage.Proofs.Cache.Entries
import CommandCoverage.Proofs.Files.Finite
import Mathlib.Data.Set.Card

namespace CommandCoverage

open Script Analysis

variable {w : Workspace} {p k : String} {σ τ υ : Session} {m : Module} {f : Failure}

inductive Loads (w : Workspace) (p : String) (σ : Session) :
    Except Failure Module → Session → Prop
  | known {m : Module} (h : σ.modules.get? (w.files.absolute p) = some m) : Loads w p σ (.ok m) σ
  | unreadable {f : Failure} (h : σ.modules.get? (w.files.absolute p) = none)
      (hr : w.files.read w.maxFileSize p = .error f) : Loads w p σ (.error f) σ
  | cached {source : SourceText} {tree : Node} {cache : ParseCache Float Node}
      (h : σ.modules.get? (w.files.absolute p) = none)
      (hr : w.files.read w.maxFileSize p = .ok source)
      (hc : σ.cache.get (w.clock σ.readings) (w.cacheKey p source.content) = (some tree, cache)) :
      Loads w p σ (.ok (.ofRoot p tree))
        { σ with
          cache
          modules := σ.modules.set (w.files.absolute p) (.ofRoot p tree)
          readings := σ.readings + 1 }
  | faulty {source : SourceText} {cache : ParseCache Float Node}
      (h : σ.modules.get? (w.files.absolute p) = none)
      (hr : w.files.read w.maxFileSize p = .ok source)
      (hc : σ.cache.get (w.clock σ.readings) (w.cacheKey p source.content) = (none, cache))
      (hp : parseFile p source.content = none) :
      Loads w p σ (.error (.unparseable p 1 1 "" "syntax error"))
        { σ with cache, readings := σ.readings + 1 }
  | parsed {source : SourceText} {tree : Node} {cache : ParseCache Float Node}
      (h : σ.modules.get? (w.files.absolute p) = none)
      (hr : w.files.read w.maxFileSize p = .ok source)
      (hc : σ.cache.get (w.clock σ.readings) (w.cacheKey p source.content) = (none, cache))
      (hp : parseFile p source.content = some tree) :
      Loads w p σ (.ok (.ofRoot p tree))
        { σ with
          cache := cache.set (w.clock (σ.readings + 1)) (w.cacheKey p source.content) tree
          modules := σ.modules.set (w.files.absolute p) (.ofRoot p tree)
          readings := σ.readings + 2 }

theorem parse_run (w : Workspace) (p content : String) (σ : Session) :
    (parse w p content).run σ =
      match σ.cache.get (w.clock σ.readings) (w.cacheKey p content) with
      | (some tree, cache) => (.ok tree, { σ with cache, readings := σ.readings + 1 })
      | (none, cache) =>
        match parseFile p content with
        | none => (.error (.unparseable p 1 1 "" "syntax error"),
            { σ with cache, readings := σ.readings + 1 })
        | some tree =>
          (.ok tree, { σ with
            cache := cache.set (w.clock (σ.readings + 1)) (w.cacheKey p content) tree
            readings := σ.readings + 2 }) := by
  rcases h : σ.cache.get (w.clock σ.readings) (w.cacheKey p content) with ⟨_ | tree, cache⟩
  · cases hp : parseFile p content <;> simp [Analysis.parse, readClock, h, hp] <;> rfl
  · simp [Analysis.parse, readClock, h]
    rfl

theorem load_run (w : Workspace) (p : String) (σ : Session) :
    (load w p).run σ =
      match σ.modules.get? (w.files.absolute p) with
      | some m => (.ok m, σ)
      | none =>
        match w.files.read w.maxFileSize p with
        | .error f => (.error f, σ)
        | .ok source =>
          match (parse w p source.content).run σ with
          | (.error f, τ) => (.error f, τ)
          | (.ok root, τ) => (.ok (.ofRoot p root),
              { τ with modules := τ.modules.set (w.files.absolute p) (.ofRoot p root) }) := by
  unfold load
  cases h : σ.modules.get? (w.files.absolute p) with
  | some m =>
    simp only [StateT.run_bind, StateT.run_get, pure_bind, h]
    rfl
  | none =>
    simp only [StateT.run_bind, StateT.run_get, pure_bind, h]
    cases hr : w.files.read w.maxFileSize p with
    | error f => rfl
    | ok source =>
      simp only [StateT.run_bind]
      rcases hp : (parse w p source.content).run σ with ⟨_ | _, τ⟩ <;> rfl

theorem loads_load (w : Workspace) (p : String) (σ : Session) :
    Loads w p σ ((load w p).run σ).1 ((load w p).run σ).2 := by
  rw [load_run]
  cases h : σ.modules.get? (w.files.absolute p) with
  | some m => exact .known h
  | none =>
    cases hr : w.files.read w.maxFileSize p with
    | error f => exact .unreadable h hr
    | ok source =>
      dsimp only
      rw [parse_run]
      rcases hc : σ.cache.get (w.clock σ.readings) (w.cacheKey p source.content) with
        ⟨_ | tree, cache⟩
      · cases hp : parseFile p source.content with
        | none => exact .faulty h hr hc hp
        | some tree => exact .parsed h hr hc hp
      · exact .cached h hr hc

theorem Loads.run {r : Except Failure Module} (h : Loads w p σ r τ) :
    (load w p).run σ = (r, τ) := by
  rw [load_run]
  cases h with
  | known h => rw [h]
  | unreadable h hr => rw [h, hr]
  | cached h hr hc => simp [h, hr, parse_run, hc]
  | faulty h hr hc hp => simp [h, hr, parse_run, hc, hp]
  | parsed h hr hc hp => simp [h, hr, parse_run, hc, hp]

theorem Loads.warnings {r : Except Failure Module} (h : Loads w p σ r τ) :
    τ.warnings = σ.warnings := by
  cases h <;> rfl

theorem load_of_known (h : σ.modules.get? (w.files.absolute p) = some m) :
    (load w p).run σ = (.ok m, σ) := by
  rw [load_run, h]

def Script.Export.bound? : Export → Option String
  | .bound name => some name
  | _ => none

def Script.Export.passed? : Export → Option Import
  | .passed i => some i
  | _ => none

theorem get?_of_bound? {m : Module} {name inner : String}
    (h : (m.exports.get? name).bind (·.bound?) = some inner) :
    m.exports.get? name = some (.bound inner) := by
  obtain ⟨e, he, hb⟩ := Option.bind_eq_some_iff.1 h
  cases e <;> cases hb
  exact he

theorem get?_of_passed? {m : Module} {name : String} {i : Import}
    (h : (m.exports.get? name).bind (·.passed?) = some i) :
    m.exports.get? name = some (.passed i) := by
  obtain ⟨e, he, hb⟩ := Option.bind_eq_some_iff.1 h
  cases e <;> cases hb
  exact he

def moduleOf (path text : String) : Module :=
  .ofRoot path ((parseFile path text).getD { kind := .program })

theorem loads_moduleOf {path text : String} (hc : σ.cache.enabled = false)
    (hnew : σ.modules.get? (w.files.absolute path) = none)
    (hread : ∃ size, w.files.read w.maxFileSize path = .ok ⟨path, text, size⟩)
    (hp : (parseFile path text).isSome = true) :
    ∃ τ, Loads w path σ (.ok (moduleOf path text)) τ := by
  obtain ⟨size, hread⟩ := hread
  obtain ⟨tree, htree⟩ := Option.isSome_iff_exists.1 hp
  have hmodule : moduleOf path text = .ofRoot path tree := by
    rw [moduleOf, htree, Option.getD_some]
  rw [hmodule]
  exact ⟨_, .parsed hnew hread (ParseCache.get_of_disabled hc _ _) htree⟩

/-- A session after some loads of files that imports lead to, and some warnings. -/
inductive Later (w : Workspace) (σ : Session) : Session → Prop
  | refl : Later w σ σ
  | load {p : String} {r : Except Failure Module} {τ υ : Session} : Later w σ τ →
      w.files.Importable p → Loads w p τ r υ → Later w σ υ
  | warn {τ υ : Session} : Later w σ τ → υ.modules = τ.modules → υ.cache = τ.cache → Later w σ υ

namespace Later

theorem trans (h : Later w σ τ) (h' : Later w τ υ) : Later w σ υ := by
  induction h' with
  | refl => exact h
  | load _ hp hl ih => exact ih.load hp hl
  | warn _ hm hc ih => exact ih.warn hm hc

theorem of_load (hp : w.files.Importable p) {r : Except Failure Module} (h : Loads w p σ r τ) :
    Later w σ τ :=
  .load .refl hp h

theorem get? (h : Later w σ τ) (hk : σ.modules.get? k = some m) : τ.modules.get? k = some m := by
  induction h with
  | refl => exact hk
  | warn _ hm _ ih => rwa [hm]
  | load _ _ hl ih =>
    cases hl with
    | known => exact ih
    | unreadable => exact ih
    | faulty => exact ih
    | cached hn | parsed hn =>
      rw [Table.get?_set, if_neg (by rintro rfl; simp [ih] at hn)]
      exact ih

end Later

section keyed

theorem Script.Module.path_ofRoot (p : String) (root : Node) : (Module.ofRoot p root).path = p := by
  have hstep (m : Module) (n : Node) : (m.addStatement n).path = m.path := by
    unfold addStatement
    split
    · unfold addImport
      split <;> rfl
    · rfl
    · rfl
    · unfold addExport
      dsimp only
      split
      · split <;> rfl
      · rfl
      · rfl
      · split <;> rfl
    · rfl
  unfold ofRoot
  generalize hm : (({ path := p, root } : Module)) = m
  have : m.path = p := by rw [← hm]
  rw [← this]
  clear hm this
  induction root.children generalizing m with
  | nil => rfl
  | cons n ns ih => rw [List.foldl_cons, ih, hstep]

def Keyed (w : Workspace) (σ : Session) : Prop :=
  ∀ k m, σ.modules.get? k = some m → w.files.absolute m.path = k

theorem Loads.get? (h : Loads w p σ (.ok m) τ) :
    τ.modules.get? (w.files.absolute p) = some m := by
  cases h with
  | known h => exact h
  | cached => simp [Table.get?_set]
  | parsed => simp [Table.get?_set]

theorem Later.keyed (h : Later w σ τ) (hk : Keyed w σ) : Keyed w τ := by
  induction h with
  | refl => exact hk
  | warn _ hm _ ih => intro k m; rw [hm]; exact ih k m
  | load _ _ hl ih =>
    cases hl with
    | known => exact ih
    | unreadable => exact ih
    | faulty => exact ih
    | cached | parsed =>
      intro k m hm
      rw [Table.get?_set] at hm
      split at hm
      · obtain rfl := Option.some_inj.1 hm
        rw [Module.path_ofRoot]
        exact Eq.symm ‹_›
      · exact ih k m hm

theorem Loads.held (h : Loads w p σ (.ok m) τ) (hk : Keyed w τ) :
    τ.modules.get? (w.files.absolute m.path) = some m := by
  rw [hk _ _ h.get?, h.get?]

end keyed

section places

theorem read_eq_ok_iff {t : FileTree} {limit : Nat} {s : SourceText} : t.read limit p = .ok s ↔
    ∃ bytes, t.get? (FileTree.plainPath p) = some (.file bytes) ∧ bytes.length ≤ limit ∧
      Text.decodeUtf8 bytes = .ok s.content ∧ s = ⟨p, s.content, bytes.length⟩ ∧
      t.refusal? (FileTree.plainPath p) = none := by
  unfold FileTree.read FileTree.readFault?
  cases hg : t.get? (FileTree.plainPath p) with
  | none => simp [Except.mapError]
  | some e =>
    have hseen := (FileTree.get?_eq_some_iff.1 hg).2
    cases e with
    | link => simp [Except.mapError]
    | directory => simp [Except.mapError]
    | file bytes =>
      cases hr : t.refusal? (FileTree.plainPath p) with
      | some r =>
        cases r with
        | look f => exact absurd hr (hseen f)
        | measure => simp [Except.mapError]
        | permission | read => by_cases hl : limit < bytes.length <;> simp [hl, Except.mapError]
      | none =>
        by_cases hl : limit < bytes.length
        · simp [hl, Except.mapError]
        · cases hd : Text.decodeUtf8 bytes with
          | error => simp [hl, Except.mapError, hd]
          | ok content =>
            obtain ⟨path, text, size⟩ := s
            simp [hl, Except.mapError, hd]
            grind

/-- The absolute paths of the files that imports lead to and that can be read. -/
def Workspace.places (w : Workspace) : Set String :=
  {k | ∃ p, w.files.Importable p ∧ (w.files.read w.maxFileSize p).toOption.isSome ∧
    w.files.absolute p = k}

theorem finite_places (w : Workspace) : w.places.Finite := by
  refine w.files.finite_importable.subset ?_
  rintro k ⟨p, hp, hr, rfl⟩
  obtain ⟨s, hs⟩ : ∃ s, w.files.read w.maxFileSize p = .ok s := by
    cases h : w.files.read w.maxFileSize p <;> simp_all [Except.toOption]
  obtain ⟨bytes, hg, -⟩ := read_eq_ok_iff.1 hs
  exact ⟨p, hp, by simp [hg], rfl⟩

theorem mem_places {source : SourceText} (hp : w.files.Importable p)
    (hr : w.files.read w.maxFileSize p = .ok source) : w.files.absolute p ∈ w.places :=
  ⟨p, hp, by simp [hr, Except.toOption], rfl⟩

noncomputable def unread (w : Workspace) (σ : Session) : Nat :=
  (w.places \ {k | (σ.modules.get? k).isSome}).ncard

theorem unread_set_lt (hk : k ∈ w.places) (h : σ.modules.get? k = none)
    (hτ : τ.modules = σ.modules.set k m) : unread w τ < unread w σ := by
  refine Set.ncard_lt_ncard ⟨?_, fun hs ↦ ?_⟩ ((finite_places w).sdiff)
  · rintro j ⟨hj, hn⟩
    refine ⟨hj, fun hs ↦ hn ?_⟩
    simp only [Set.mem_ofPred_eq, hτ, Table.get?_set] at hs ⊢
    split
    · rfl
    · exact hs
  · have := (hs ⟨hk, by simp [h]⟩).2
    simp [hτ, Table.get?_set] at this

theorem Later.unread_lt_or (h : Later w σ τ) :
    unread w τ < unread w σ ∨ τ.modules = σ.modules := by
  induction h with
  | refl => exact .inr rfl
  | @warn τ υ _ hm _ ih =>
    rcases ih with ih | ih
    · exact .inl (by unfold unread at ih ⊢; rwa [hm])
    · exact .inr (hm.trans ih)
  | @load p r τ υ _ hp hl ih =>
    have hstep : unread w υ < unread w τ ∨ υ.modules = τ.modules := by
      cases hl with
      | known => exact .inr rfl
      | unreadable => exact .inr rfl
      | faulty => exact .inr rfl
      | cached hn hr | parsed hn hr => exact .inl (unread_set_lt (mem_places hp hr) hn rfl)
    rcases hstep with hs | hs <;> rcases ih with ih | ih
    · exact .inl (hs.trans ih)
    · exact .inl (by unfold unread at hs ⊢; rwa [← ih])
    · exact .inl (by unfold unread at ih ⊢; rwa [hs])
    · exact .inr (hs.trans ih)

/-- Later there is less to do if there is less of it whenever no module was read. -/
theorem Later.lex {α : Type} {s : α → α → Prop} {a b : α} (h : Later w σ τ)
    (hs : τ.modules = σ.modules → s a b) :
    Prod.Lex (· < ·) s (unread w τ, a) (unread w σ, b) := by
  rcases h.unread_lt_or with hu | hu
  · exact .left _ _ hu
  · have he : unread w τ = unread w σ := by rw [unread, unread, hu]
    exact he ▸ .right _ (hs hu)

end places

section steady

/-- Two files that imports lead to share a cache key only if they are one file. -/
def Workspace.KeysApart (w : Workspace) : Prop :=
  ∀ p q s t, w.files.Importable p → w.files.Importable q →
    w.files.read w.maxFileSize p = .ok s → w.files.read w.maxFileSize q = .ok t →
    w.cacheKey p s.content = w.cacheKey q t.content → w.files.absolute p = w.files.absolute q

variable {q : String} {r : Except Failure Module}

theorem read_agrees (hp : w.files.Importable p) (hq : w.files.Importable q)
    (ha : w.files.absolute p = w.files.absolute q) {s : SourceText}
    (hs : w.files.read w.maxFileSize p = .ok s) :
    ∃ t, w.files.read w.maxFileSize q = .ok t ∧ t.content = s.content := by
  obtain ⟨bytes, hg, hl, hd, -, hr⟩ := read_eq_ok_iff.1 hs
  refine ⟨⟨q, s.content, bytes.length⟩, read_eq_ok_iff.2 ⟨bytes, ?_, hl, hd, rfl, ?_⟩, rfl⟩
  · rw [hq.get?_plainPath, ← ha, ← hp.get?_plainPath, hg]
  · rw [hq.refusal?_plainPath, FileTree.refusal?, FileTree.spelledParts, ← ha] at *
    exact hp.refusal?_plainPath.symm.trans hr

theorem parseFile_agrees (hp : w.files.Importable p) (hq : w.files.Importable q)
    (ha : w.files.absolute p = w.files.absolute q) (content : String) :
    parseFile p content = parseFile q content := by
  have hl : Path.lastPart p = Path.lastPart q := by
    rw [← hp.lastPart_absolute, ← hq.lastPart_absolute, ha]
  simp [parseFile, Dialect.ofPath, Path.suffix, hl]

theorem Later.enabled (h : Later w σ τ) : τ.cache.enabled = σ.cache.enabled := by
  induction h with
  | refl => rfl
  | warn _ _ hc ih => rw [hc, ih]
  | load _ _ hl ih =>
    cases hl with
    | known => exact ih
    | unreadable => exact ih
    | cached _ _ hc | faulty _ _ hc =>
      rw [← ih, ← congrArg (·.2.enabled) hc]
      exact ParseCache.enabled_get
    | parsed _ _ hc =>
      rw [← ih, ParseCache.enabled_set, ← congrArg (·.2.enabled) hc]
      exact ParseCache.enabled_get

structure Refused (w : Workspace) (p : String) (σ : Session) : Prop where
  unknown : σ.modules.get? (w.files.absolute p) = none
  unparsed : ∀ s, w.files.read w.maxFileSize p = .ok s →
    parseFile p s.content = none ∧ σ.cache.Lacks (w.cacheKey p s.content)

theorem Loads.refused (h : Loads w p σ (.error f) τ) : Refused w p τ := by
  cases h with
  | unreadable h hr => exact ⟨h, fun s hs ↦ by simp [hr] at hs⟩
  | faulty h hr hc hp =>
    refine ⟨h, fun s hs ↦ ?_⟩
    obtain rfl := Except.ok.inj (hr.symm.trans hs)
    refine ⟨hp, ?_⟩
    have := ParseCache.lacks_get (congrArg Prod.fst hc)
    rwa [hc] at this

theorem Refused.loads (h : Refused w p σ) (hl : Loads w p σ r τ) : ∃ f, r = .error f := by
  cases hl with
  | known hk => simp [h.unknown] at hk
  | unreadable => exact ⟨_, rfl⟩
  | faulty => exact ⟨_, rfl⟩
  | cached _ hr hc =>
    have hlacks := (h.unparsed _ hr).2
    have hnone : (σ.cache.get (w.clock σ.readings) _).1 = none := ParseCache.get_of_lacks hlacks
    simp [hc] at hnone
  | parsed _ hr _ hp => simp [(h.unparsed _ hr).1] at hp

theorem Refused.absolute_ne (h : Refused w p σ) (hp : w.files.Importable p)
    (hq : w.files.Importable q) {s : SourceText} (hs : w.files.read w.maxFileSize q = .ok s)
    (ht : (∃ now, (σ.cache.get now (w.cacheKey q s.content)).1 ≠ none) ∨
      parseFile q s.content ≠ none) :
    w.files.absolute p ≠ w.files.absolute q := by
  intro ha
  obtain ⟨t, hr, he⟩ := read_agrees hq hp ha.symm hs
  have hkey : w.cacheKey q s.content = w.cacheKey p t.content := by
    rw [Workspace.cacheKey, Workspace.cacheKey, ha, he]
  obtain ⟨hparse, hlacks⟩ := h.unparsed t hr
  rcases ht with ⟨now, ht⟩ | ht
  · rw [hkey] at ht
    exact ht (ParseCache.get_of_lacks hlacks)
  · rw [← parseFile_agrees hp hq ha, ← he] at ht
    exact ht hparse

theorem Refused.of_loads (h : Refused w p σ) (hp : w.files.Importable p)
    (hq : w.files.Importable q) (hw : σ.cache.enabled = true → w.KeysApart)
    (hl : Loads w q σ r τ) : Refused w p τ := by
  have hlacks (s : SourceText) (hs : w.files.read w.maxFileSize p = .ok s) (k : String) :
      (σ.cache.get (w.clock σ.readings) k).2.Lacks (w.cacheKey p s.content) :=
    (h.unparsed s hs).2.get
  cases hl with
  | known => exact h
  | unreadable => exact h
  | @faulty source _ _ _ hc =>
    refine ⟨h.unknown, fun s hs ↦ ⟨(h.unparsed s hs).1, ?_⟩⟩
    simpa [hc] using hlacks s hs (w.cacheKey q source.content)
  | @cached source _ _ _ hr hc =>
    have hne := h.absolute_ne hp hq hr (.inl ⟨w.clock σ.readings, by simp [hc]⟩)
    refine ⟨by simpa [Table.get?_set, hne] using h.unknown, fun s hs ↦ ⟨(h.unparsed s hs).1, ?_⟩⟩
    simpa [hc] using hlacks s hs (w.cacheKey q source.content)
  | @parsed source _ cache _ hr hc ht =>
    have hne := h.absolute_ne hp hq hr (.inr (by simp [ht]))
    refine ⟨by simpa [Table.get?_set, hne] using h.unknown, fun s hs ↦ ⟨(h.unparsed s hs).1, ?_⟩⟩
    have hkept : cache.Lacks (w.cacheKey p s.content) := by
      simpa [hc] using hlacks s hs (w.cacheKey q source.content)
    refine hkept.set fun he hk ↦ hne (hw ?_ p q s source hp hq hs hr hk)
    rw [← he, ← ParseCache.enabled_get (c := σ.cache), hc]

theorem Refused.later (h : Refused w p σ) (hp : w.files.Importable p)
    (hw : σ.cache.enabled = true → w.KeysApart) (hl : Later w σ τ) : Refused w p τ := by
  induction hl with
  | refl => exact h
  | warn _ hm hc ih => exact ⟨hm ▸ ih.unknown, hc ▸ ih.unparsed⟩
  | load hb hq hl ih => exact ih.of_loads hp hq (fun he ↦ hw (hb.enabled ▸ he)) hl

end steady

end CommandCoverage
