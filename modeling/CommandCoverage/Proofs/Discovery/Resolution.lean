import CommandCoverage.Proofs.Cache.Trust
import Mathlib.Logic.Relation

namespace CommandCoverage

open Script Analysis Relation

/-- One step towards a definition among the modules that a session gives. -/
inductive Step (w : Workspace) (localOnly : Bool) (τ : Session) : Query → Query → Prop
  | move {q q' : Query} (h : Moves q q') : Step w localOnly τ q q'
  | binding {m : Module} {name : String} {v : Node} (h : Binds m name v) :
      Step w localOnly τ (.source (.bound name) m) (.source (m.classify (some v)) m)
  | imported {i : Import} {fromFile path : String} {m target : Module}
      (h : LeadsTo w localOnly i fromFile path)
      (hl : ((load w path).run τ).1 = .ok target) :
      Step w localOnly τ (.source (.imported i fromFile) m) (.exported i.name target)
  | star {name specifier : String} {specifiers : List String} {m : Module}
      (h : specifier ∈ specifiers) :
      Step w localOnly τ (.starred name specifiers m)
        (.source (.imported ⟨specifier, name⟩ m.path) m)

structure Reaches (w : Workspace) (localOnly : Bool) (τ : Session) (q : Query) (l : Located) :
    Prop where
  steps : ReflTransGen (Step w localOnly τ) q (.source (.inline l.object) l.owner)
  command : l.object.looksLikeCommand = true

variable {w : Workspace} {localOnly : Bool} {passed : List Passed} {q q' x : Query}
  {r : Except Unresolved Located} {σ τ υ : Session} {l : Located} {μ : Passed}

theorem Reaches.head (hs : Step w localOnly τ q q') (h : Reaches w localOnly τ q' l) :
    Reaches w localOnly τ q l :=
  ⟨.head hs h.steps, h.command⟩

theorem load_of_loads {path : String} {target : Module} (h : Loads w path σ (.ok target) τ)
    (hl : Later w τ υ) : ((load w path).run υ).1 = .ok target := by
  rw [load_of_known (hl.get? h.get?)]

theorem Reaches.cons {name specifier : String} {specifiers : List String} {m : Module}
    (h : Reaches w localOnly τ (.starred name specifiers m) l) :
    Reaches w localOnly τ (.starred name (specifier :: specifiers) m) l := by
  obtain ⟨hs, hc⟩ := h
  rcases hs.cases_head with he | ⟨q, hs, hrest⟩
  · cases he
  · cases hs with
    | move h => cases h
    | star h => exact .head (.star (List.mem_cons_of_mem _ h)) ⟨hrest, hc⟩

theorem Follows.reaches (h : Follows w localOnly passed q σ (.ok l) τ) (hl : Later w τ υ) :
    Reaches w localOnly υ q l := by
  generalize hr : (Except.ok l : Except Unresolved Located) = r at h
  induction h with
  | answer h =>
    cases h <;> simp only [Except.ok.injEq, reduceCtorEq] at hr
    subst hr
    exact ⟨.refl, ‹_›⟩
  | move hm _ ih => exact .head (.move hm) (ih hl hr)
  | binding hb _ _ ih => exact .head (.binding hb) (ih hl hr)
  | unloadable => simp at hr
  | imported hi _ hload hf ih =>
    exact .head (.imported hi (load_of_loads hload (hf.later.trans hl))) (ih hl hr)
  | star _ ih => exact .head (.star List.mem_cons_self) (ih hl hr)
  | nextStar _ _ _ ih => exact (ih hl hr).cons

inductive Leaves (w : Workspace) : Query → Passed → Prop
  | name {m : Module} {name : String} (h : m.imports.get? name = none) :
      Leaves w (.source (.bound name) m) (.name m.path name)
  | exported {i : Import} {fromFile path : String} {m : Module}
      (h : w.files.resolveModule i.specifier fromFile = some path) :
      Leaves w (.source (.imported i fromFile) m) (.exported (w.files.absolute path) i.name)

/-- Steps lead to a definition, and no query that they go on from leaves a mark that was passed. -/
inductive Way (w : Workspace) (localOnly : Bool) (τ : Session) (passed : List Passed) :
    Query → Located → Prop
  | arrive {l : Located} (h : l.object.looksLikeCommand = true) :
      Way w localOnly τ passed (.source (.inline l.object) l.owner) l
  | step {q q' : Query} {l : Located} (hq : ∀ μ, Leaves w q μ → μ ∉ passed)
      (hs : Step w localOnly τ q q') (h : Way w localOnly τ passed q' l) :
      Way w localOnly τ passed q l

theorem Reaches.way (h : Reaches w localOnly τ q l) : Way w localOnly τ [] q l := by
  obtain ⟨hs, hc⟩ := h
  induction hs using ReflTransGen.head_induction_on with
  | refl => exact .arrive hc
  | head hs _ ih => exact .step (by simp) hs ih

def Proper (w : Workspace) (τ : Session) (m : Module) : Prop :=
  ∀ m', τ.modules.get? (w.files.absolute m.path) = some m' → m' = m

theorem Loads.proper {path : String} {target : Module} (h : Loads w path σ (.ok target) τ)
    (hk : Keyed w σ) : Proper w σ target := by
  intro m hm
  cases h with
  | known h =>
    rw [hk _ _ h, h] at hm
    exact (Option.some_inj.1 hm).symm
  | cached h | parsed h => simp [Module.path_ofRoot, h] at hm

theorem Step.proper (h : Step w localOnly τ q q') (hk : Keyed w τ) (hq : Proper w τ q.module) :
    Proper w τ q'.module := by
  cases h with
  | move h =>
    rw [h.module_eq]
    exact hq
  | binding => exact hq
  | star => exact hq
  | @imported _ _ path _ target _ hl =>
    have hload := loads_load w path τ
    rw [hl] at hload
    exact hload.proper hk

/-- A way either avoids a mark or goes on without it after a last query that leaves it. -/
theorem Way.cut (h : Way w localOnly τ passed q l) (hk : Keyed w τ) (hq : Proper w τ q.module)
    (μ : Passed) : Way w localOnly τ (μ :: passed) q l ∨
      ∃ a b, Proper w τ a.module ∧ Leaves w a μ ∧ Step w localOnly τ a b ∧
        Way w localOnly τ (μ :: passed) b l := by
  -- From the end of the way: the last query that leaves the mark is the first to be met.
  induction h with
  | arrive h => exact .inl (.arrive h)
  | @step q q' l hp hs _ ih =>
    rcases ih (hs.proper hk hq) with hw | hw
    · by_cases hμ : Leaves w q μ
      · exact .inr ⟨q, q', hq, hμ, hs, hw⟩
      · refine .inl (.step (fun ν hν hm ↦ ?_) hs hw)
        rcases List.mem_cons.1 hm with rfl | hm
        · exact hμ hν
        · exact hp ν hν hm
    · exact .inr hw

/-- If all queries that leave a mark go on to the same query, and nothing is reached from there
without the mark, then nothing is reached from such a query. -/
theorem not_way_of_leaves (hk : Keyed w τ) (hq : Proper w τ q.module) (hμ : Leaves w q μ)
    (hnext : ∀ a b, Proper w τ a.module → Leaves w a μ → Step w localOnly τ a b → b = q')
    (hdead : ¬Way w localOnly τ (μ :: passed) q' l) : ¬Way w localOnly τ passed q l := by
  intro h
  cases h with
  | arrive => cases hμ
  | step _ hs hway =>
    have he := hnext _ _ hq hμ hs
    subst he
    rcases hway.cut hk (hs.proper hk hq) μ with hw | ⟨a, b, ha, hμ', hs', hw⟩
    · exact hdead hw
    · exact hdead (hnext a b ha hμ' hs' ▸ hw)

theorem Moves.step_eq (h : Moves q q') (hs : Step w localOnly τ q x) : x = q' := by
  cases h <;> cases hs <;> grind [Moves, Binds]

theorem Step.of_imported {i : Import} {fromFile : String} {m : Module}
    (h : Step w localOnly τ (.source (.imported i fromFile) m) x) : ∃ path target,
      LeadsTo w localOnly i fromFile path ∧ ((load w path).run τ).1 = .ok target ∧
        x = .exported i.name target := by
  cases h with
  | move h => cases h
  | imported h hl => exact ⟨_, _, h, hl, rfl⟩

theorem Step.of_starred {name : String} {specifiers : List String} {m : Module}
    (h : Step w localOnly τ (.starred name specifiers m) x) :
    ∃ specifier ∈ specifiers, x = .source (.imported ⟨specifier, name⟩ m.path) m := by
  cases h with
  | move h => cases h
  | star h => exact ⟨_, h, rfl⟩

theorem Answers.not_way {why : Unresolved} (h : Answers w localOnly passed q (.error why)) :
    ¬Way w localOnly τ passed q l := by
  rintro (⟨hc⟩ | ⟨hq, hs, -⟩)
  · cases h with
    | other h => simp [h] at hc
  · cases h with
    | unresolved => cases hs with | move h => cases h
    | other => cases hs with | move h => cases h
    | again h hp => exact hq _ (.name h) hp
    | undefined h hb =>
      cases hs with
      | move hm => cases hm with | ofImport hi => simp [h] at hi
      | binding hv =>
        have := hv.value
        simp [hb] at this
    | elsewhere h =>
      obtain ⟨path, target, hi, -⟩ := hs.of_imported
      have := hi.allowed
      simp [h] at this
    | nowhere _ hr =>
      obtain ⟨path, target, hi, -⟩ := hs.of_imported
      have := hi.resolved
      simp [hr] at this
    | cycle h hp => exact hq _ (.exported h.resolved) hp
    | noExport =>
      obtain ⟨specifier, hm, -⟩ := hs.of_starred
      simp at hm

theorem Step.eq_of_name {m : Module} {name : String} {v : Node} {a b : Query}
    (hs : Step w localOnly τ a b) (h : Binds m name v) (ha : Proper w τ a.module)
    (hm : τ.modules.get? (w.files.absolute m.path) = some m)
    (hμ : Leaves w a (.name m.path name)) : b = .source (m.classify (some v)) m := by
  generalize he : Passed.name m.path name = μ at hμ
  cases hμ with
  | exported => cases he
  | @name m' name' hi =>
    obtain ⟨hpath, rfl⟩ := Passed.name.inj he
    obtain rfl : m = m' := ha m (by simpa [Query.module, ← hpath] using hm)
    cases hs with
    | move h => cases h with | ofImport h => simp [hi] at h
    | binding hv =>
      obtain rfl := Option.some_inj.1 (h.value.symm.trans hv.value)
      rfl

theorem Step.eq_of_exported {path n : String} {target : Module} {a b : Query}
    (hs : Step w localOnly τ a b)
    (hm : τ.modules.get? (w.files.absolute path) = some target)
    (hμ : Leaves w a (.exported (w.files.absolute path) n)) : b = .exported n target := by
  generalize he : Passed.exported (w.files.absolute path) n = μ at hμ
  cases hμ with
  | name => cases he
  | @exported i fromFile path' m hr =>
    obtain ⟨hpath, rfl⟩ := Passed.exported.inj he
    obtain ⟨path'', target', hi, hl, rfl⟩ := hs.of_imported
    obtain rfl := Option.some_inj.1 (hr.symm.trans hi.resolved)
    rw [hpath] at hm
    rw [load_of_known hm] at hl
    rw [Except.ok.inj hl]

theorem Follows.not_way {why : Unresolved} (h : Follows w localOnly passed q σ (.error why) τ)
    (hc : σ.cache.enabled = true → w.KeysApart) (hk : Keyed w σ)
    (hm : σ.modules.get? (w.files.absolute q.module.path) = some q.module) (hl : Later w τ υ) :
    ¬Way w localOnly υ passed q l := by
  generalize hr : (Except.error why : Except Unresolved Located) = r at h
  induction h generalizing why with
  | answer h =>
    subst hr
    exact h.not_way
  | move h hf ih =>
    have hdead := ih hc hk (by rwa [h.module_eq]) hl hr
    intro hw
    cases hw with
    | arrive => cases h
    | step _ hs hw => exact hdead (h.step_eq hs ▸ hw)
  | binding h _ hf ih =>
    have hlater := hf.later.trans hl
    have hm' := hlater.get? hm
    exact not_way_of_leaves (hlater.keyed hk)
      (fun m' h' ↦ Option.some_inj.1 (h'.symm.trans hm')) (.name h.noImport)
      (fun a b ha hμ hs ↦ hs.eq_of_name h ha hm' hμ) (ih hc hk hm hl hr)
  | @unloadable _ _ _ path _ _ σ τ h _ hload =>
    intro hw
    cases hw with
    | step _ hs =>
      obtain ⟨path', target, hi, ht, -⟩ := hs.of_imported
      obtain rfl := Option.some_inj.1 (h.resolved.symm.trans hi.resolved)
      have henabled := (Later.of_load h.importable hload).enabled
      have href := hload.refused.later h.importable (fun he ↦ hc (henabled ▸ he)) hl
      obtain ⟨f, hf⟩ := href.loads (loads_load w path υ)
      simp [hf] at ht
  | imported h _ hload hf ih =>
    have hstep := Later.of_load h.importable hload
    have hlater := hf.later.trans hl
    have hm' := (hstep.trans hlater).get? hm
    have ht := hload.held (hstep.keyed hk)
    refine not_way_of_leaves ((hstep.trans hlater).keyed hk)
      (fun m' h' ↦ Option.some_inj.1 (h'.symm.trans hm')) (.exported h.resolved)
      (fun a b _ hμ hs ↦ hs.eq_of_exported (hlater.get? hload.get?) hμ)
      (ih (fun he ↦ hc (hstep.enabled ▸ he)) (hstep.keyed hk) ht hl hr)
  | star => simp at hr
  | nextStar hf hf' ih ih' =>
    -- The first star failed before the others were tried; it fails in the end, too.
    have hfirst := ih hc hk hm (hf'.later.trans hl) rfl
    have hrest := ih' (fun he ↦ hc (hf.later.enabled ▸ he)) (hf.later.keyed hk)
      (hf.later.get? hm) hl hr
    intro hw
    cases hw with
    | step hq hs hw =>
      obtain ⟨specifier, hmem, rfl⟩ := hs.of_starred
      rcases List.mem_cons.1 hmem with rfl | hmem
      · exact hfirst hw
      · exact hrest (.step (fun μ hμ ↦ by cases hμ) (.star hmem) hw)

/-- Resolution ends with the definition that a source denotes or says that there is none. It gives
one if and only if one can be reached among the modules that are there in the end, and then one that
can be reached. -/
theorem resolve_exact {m : Module} (hk : Keyed w σ)
    (hm : σ.modules.get? (w.files.absolute m.path) = some m)
    (hc : σ.cache.enabled = true → w.KeysApart) (s : Source) (localOnly : Bool) :
    ∃ r τ, Unbounded.follow w localOnly [] (.source s m) σ = some (r, τ) ∧
      (resolve w s m localOnly).run σ = (r, τ) ∧ Later w σ τ ∧
      ((∃ l, r = .ok l) ↔ ∃ l, Reaches w localOnly τ (.source s m) l) ∧
      ∀ l, r = .ok l → Reaches w localOnly τ (.source s m) l := by
  obtain ⟨r, τ, h⟩ := exists_follows w localOnly [] (.source s m) σ
  have hsound (l : Located) (hr : r = .ok l) : Reaches w localOnly τ (.source s m) l :=
    Follows.reaches (hr ▸ h) .refl
  refine ⟨r, τ, h.eval, ?_, h.later, ⟨fun ⟨l, hr⟩ ↦ ⟨l, hsound l hr⟩, fun ⟨l, hl⟩ ↦ ?_⟩, hsound⟩
  · rw [resolve, Unbounded.outcome_run, h.eval]
    rfl
  · cases r with
    | ok l => exact ⟨l, rfl⟩
    | error why => exact absurd hl.way (h.not_way hc hk hm .refl)

def afterReading (w : Workspace) (m : Module) : Session where
  cache := { ttl := 1, maxSize := 1, enabled := false }
  modules := ⟨[(w.files.absolute m.path, m)]⟩

/-- The same with a cache that is on and empty. -/
def caching (w : Workspace) (m : Module) : Session :=
  { afterReading w m with cache := { ttl := 3600, maxSize := 100 } }

theorem keyed_afterReading (w : Workspace) (m : Module) : Keyed w (afterReading w m) := by
  intro k m' h
  have hmem := Table.mem_entries_of_get? h
  simp only [afterReading, List.mem_singleton, Prod.mk.injEq] at hmem
  rw [hmem.1, hmem.2]

theorem held_afterReading (w : Workspace) (m : Module) :
    (afterReading w m).modules.get? (w.files.absolute m.path) = some m := by
  simp [afterReading, Table.get?]

theorem keyed_caching (w : Workspace) (m : Module) : Keyed w (caching w m) :=
  fun k m' h ↦ keyed_afterReading w m k m' h

theorem held_caching (w : Workspace) (m : Module) :
    (caching w m).modules.get? (w.files.absolute m.path) = some m :=
  held_afterReading w m

section linked

/-- The texts of some files. The first imports an export that the second passes on under another
name. It comes from the last one, by way of a file that passes on all exports of two: the first of
these passes on those of the file itself. -/
def linkedTexts : List (String × String) :=
  [("cli.mjs", "import \x7b main \x7d from './index.mjs'\n"),
    ("index.mjs", "export \x7b command as main \x7d from './parts.mjs'\n"),
    ("parts.mjs", "export * from './loop.mjs'\nexport * from './impl.mjs'\n"),
    ("loop.mjs", "export * from './parts.mjs'\n"),
    ("impl.mjs", "export const command = defineCommand(\x7b run() \x7b\x7d \x7d)\n")]

def linked : Workspace where
  files := .flat (linkedTexts.map fun x ↦ (x.1, x.2.toUTF8.toList))
  maxFileSize := 100

def linkedModule (path : String) : Module := moduleOf path ((linkedTexts.lookup path).getD "")

theorem decode_linked : ∀ x ∈ linkedTexts,
    Text.decodeUtf8 x.2.toUTF8.toList = .ok x.2 ∧ x.2.toUTF8.toList.length ≤ 100 := by
  simp only [Text.toList_toUTF8]
  decide +kernel

theorem read_linked : ∀ x ∈ linkedTexts, ∃ size,
    linked.files.read linked.maxFileSize x.1 = .ok ⟨x.1, x.2, size⟩ := by
  have hplaces : ∀ x ∈ linkedTexts,
      linked.files.get? (FileTree.plainPath x.1) = some (.file x.2.toUTF8.toList) := by
    simp only [linkedTexts, List.forall_mem_cons]
    exact ⟨rfl, rfl, rfl, rfl, rfl, nofun⟩
  intro x hx
  obtain ⟨hdecode, hlength⟩ := decode_linked x hx
  exact ⟨_, read_eq_ok_iff.2 ⟨_, hplaces x hx, hlength, hdecode, rfl, rfl⟩⟩

theorem exists_place_linked {source : SourceText}
    (hr : linked.files.read linked.maxFileSize p = .ok source) : ∃ x ∈ linkedTexts,
      source.content = x.2 ∧ linked.files.absolute p ∈ ["/" ++ x.1, "//" ++ x.1] := by
  obtain ⟨bytes, hget, -, hdecode, -⟩ := read_eq_ok_iff.1 hr
  obtain ⟨name, hmem, habs⟩ := FileTree.absolute_flat hget
  obtain ⟨x, hx, hxb⟩ := List.mem_map.1 hmem
  obtain ⟨rfl, rfl⟩ := Prod.mk.inj hxb
  exact ⟨x, hx, Except.ok.inj (hdecode.symm.trans (decode_linked x hx).1), habs⟩

theorem safePath_linked : ∀ x ∈ linkedTexts, ∀ y ∈ linkedTexts,
    ∀ a ∈ ["/" ++ x.1, "//" ++ x.1], ∀ b ∈ ["/" ++ y.1, "//" ++ y.1],
    CacheKey.safePath (Path.normalize a) = CacheKey.safePath (Path.normalize b) →
      a = b ∧ x.2 = y.2 := by
  decide +kernel

theorem eq_of_key_linked {source read : SourceText} {q : String}
    (hp : linked.files.read linked.maxFileSize p = .ok source)
    (hq : linked.files.read linked.maxFileSize q = .ok read)
    (hkey : linked.cacheKey p source.content = linked.cacheKey q read.content) :
    linked.files.absolute p = linked.files.absolute q ∧ source.content = read.content := by
  obtain ⟨x, hx, hcontent, hxa⟩ := exists_place_linked hp
  obtain ⟨y, hy, hcontent', hya⟩ := exists_place_linked hq
  rw [hcontent, hcontent']
  exact safePath_linked x hx y hy _ hxa _ hya (CacheKey.ofNormalized_eq hkey).1

theorem keysApart_linked : linked.KeysApart :=
  fun _ _ _ _ _ _ hp hq hkey ↦ (eq_of_key_linked hp hq hkey).1

theorem apart_linked : linked.Apart linked.sources := by
  refine ⟨subset_rfl, ?_⟩
  intro x hx y hy hkey
  obtain ⟨p, source, hp, rfl⟩ := hx
  obtain ⟨q, read, hq, rfl⟩ := hy
  obtain ⟨habs, hcontent⟩ := eq_of_key_linked hp hq hkey
  rw [habs, hcontent]

structure HasRead (keys : List String) (σ : Session) : Prop where
  trusts : linked.Trusts σ.cache
  modules : ∀ k, k ∉ keys → σ.modules.get? k = none

theorem HasRead.loads {keys : List String} (h : HasRead keys σ) (path : String)
    (hx : path ∈ linkedTexts.map (·.1)) (hnew : linked.files.absolute path ∉ keys) :
    ∃ τ, Loads linked path σ (.ok (linkedModule path)) τ ∧
      HasRead (linked.files.absolute path :: keys) τ := by
  have hlookup : ∀ x ∈ linkedTexts, linkedTexts.lookup x.1 = some x.2 := by decide
  have hparsed : ∀ x ∈ linkedTexts, (parseFile x.1 x.2).isSome = true := by decide +kernel
  obtain ⟨⟨path, text⟩, hmem, rfl⟩ := List.mem_map.1 hx
  obtain ⟨size, hread⟩ := read_linked _ hmem
  obtain ⟨tree, htree⟩ := Option.isSome_iff_exists.1 (hparsed _ hmem)
  have hmodule : linkedModule path = .ofRoot path tree := by
    rw [linkedModule, hlookup _ hmem, Option.getD_some, moduleOf, htree, Option.getD_some]
  have hloads := loads_load linked path σ
  rw [load_run_fst (h.trusts.trustsAt path) hread (h.modules _ hnew), parsed, htree] at hloads
  rw [hmodule]
  refine ⟨_, hloads, hloads.trusts h.trusts, ?_⟩
  intro k hk
  rw [List.mem_cons, not_or] at hk
  rw [hloads.get?_of_ne hk.1]
  exact h.modules k hk.2

theorem path_linkedModule (path : String) : (linkedModule path).path = path :=
  Module.path_ofRoot _ _

def inlineObject (m : Module) (v : Node) : Option Node :=
  match m.classify (some v) with
  | .inline obj => some obj
  | _ => none

theorem classify_of_inlineObject {m : Module} {v obj : Node} (h : inlineObject m v = some obj) :
    m.classify (some v) = .inline obj := by
  rw [inlineObject] at h
  split at h
  · rename_i found hfound
    cases h
    exact hfound
  · cases h

theorem binds_linked : ∃ v obj, Binds (linkedModule "impl.mjs") "command" v ∧
    (linkedModule "impl.mjs").classify (some v) = .inline obj ∧ obj.looksLikeCommand = true := by
  have himport : ((linkedModule "impl.mjs").imports.get? "command").isNone = true := by
    decide +kernel
  have hinline : (((linkedModule "impl.mjs").bindings.get? "command").bind
      (inlineObject (linkedModule "impl.mjs"))).any (·.looksLikeCommand) = true := by
    decide +kernel
  obtain ⟨obj, hobj, hcommand⟩ := (Option.any_eq_true _ _).1 hinline
  obtain ⟨v, hv, hobj⟩ := Option.bind_eq_some_iff.1 hobj
  exact ⟨v, obj, ⟨Option.isNone_iff_eq_none.1 himport, hv⟩, classify_of_inlineObject hobj, hcommand⟩

theorem resolveModule_linked : ∀ x ∈ [("./index.mjs", "cli.mjs", "index.mjs"),
    ("./parts.mjs", "index.mjs", "parts.mjs"), ("./loop.mjs", "parts.mjs", "loop.mjs"),
    ("./parts.mjs", "loop.mjs", "parts.mjs"), ("./impl.mjs", "parts.mjs", "impl.mjs")],
    linked.files.resolveModule x.1 x.2.1 = some x.2.2 := by
  decide +kernel

theorem leadsTo_linked {specifier fromFile path name : String}
    (h : (specifier, fromFile, path) ∈ [("./index.mjs", "cli.mjs", "index.mjs"),
      ("./parts.mjs", "index.mjs", "parts.mjs"), ("./loop.mjs", "parts.mjs", "loop.mjs"),
      ("./parts.mjs", "loop.mjs", "parts.mjs"), ("./impl.mjs", "parts.mjs", "impl.mjs")]) :
    LeadsTo linked false ⟨specifier, name⟩ (linkedModule fromFile).path path := by
  refine ⟨rfl, ?_⟩
  rw [path_linkedModule]
  exact resolveModule_linked _ h

theorem exports_linked : ∀ path ∈ ["parts.mjs", "loop.mjs"],
    (linkedModule path).exports.get? "command" = none := by
  have hnone : ∀ path ∈ ["parts.mjs", "loop.mjs"],
      ((linkedModule path).exports.get? "command").isNone = true := by decide +kernel
  exact fun path hp ↦ Option.isNone_iff_eq_none.1 (hnone path hp)

theorem stars_linked : (linkedModule "parts.mjs").stars = ["./loop.mjs", "./impl.mjs"] ∧
    (linkedModule "loop.mjs").stars = ["./parts.mjs"] := by
  decide +kernel

def linkedMarks : List Passed :=
  [.exported (linked.files.absolute "parts.mjs") "command",
    .exported (linked.files.absolute "index.mjs") "main"]

/-- The first star comes back to an export that is looked for already. -/
theorem follows_loop_linked (hloop : Loads linked "loop.mjs" σ (.ok (linkedModule "loop.mjs")) τ) :
    Follows linked false linkedMarks
      (.source (.imported ⟨"./loop.mjs", "command"⟩ (linkedModule "parts.mjs").path)
        (linkedModule "parts.mjs"))
      σ (.error (.missingExport (linkedModule "loop.mjs").path "command")) τ := by
  have hagain : LeadsTo linked false ⟨"./parts.mjs", "command"⟩ (linkedModule "loop.mjs").path
      "parts.mjs" := leadsTo_linked (by simp)
  refine .imported (leadsTo_linked (by simp)) (by decide +kernel) hloop ?_
  refine .move (.ofStars (exports_linked _ (by simp))) ?_
  rw [stars_linked.2]
  exact .nextStar (.answer (.cycle hagain (by decide +kernel))) (.answer .noExport)

theorem follows_impl_linked (himpl : Loads linked "impl.mjs" σ (.ok (linkedModule "impl.mjs")) τ) :
    ∃ obj, Follows linked false linkedMarks
      (.source (.imported ⟨"./impl.mjs", "command"⟩ (linkedModule "parts.mjs").path)
        (linkedModule "parts.mjs"))
      σ (.ok ⟨obj, linkedModule "impl.mjs"⟩) τ := by
  obtain ⟨v, obj, hbinds, hobj, hcommand⟩ := binds_linked
  have hbound : (linkedModule "impl.mjs").exports.get? "command" = some (.bound "command") :=
    get?_of_bound? (by decide +kernel)
  refine ⟨obj, .imported (leadsTo_linked (by simp)) (by decide +kernel) himpl ?_⟩
  refine .move (.ofBound hbound) (.binding hbinds (by decide +kernel) ?_)
  rw [hobj]
  exact .answer (.definition hcommand)

/-- What the first file imports is the definition in the last one. The modules on the way are read on
the way, and the star that leads back to them is passed over. -/
theorem follows_linked : ∃ l τ,
    Follows linked false [] (.source (.bound "main") (linkedModule "cli.mjs"))
      (caching linked (linkedModule "cli.mjs")) (.ok l) τ ∧
    l.owner = linkedModule "impl.mjs" := by
  have hstart : HasRead [linked.files.absolute "cli.mjs"]
      (caching linked (linkedModule "cli.mjs")) := by
    refine ⟨.inr ⟨_, apart_linked, ParseCache.keeps_of_empty rfl⟩, fun k hk ↦ ?_⟩
    have hne : k ≠ linked.files.absolute (linkedModule "cli.mjs").path := by
      rw [path_linkedModule]
      simpa using hk
    rw [caching, afterReading, Table.get?, Table.lookup_cons_eq, if_neg hne, List.lookup_nil]
  obtain ⟨σ₁, hindex, h₁⟩ := hstart.loads "index.mjs" (by decide) (by decide +kernel)
  obtain ⟨σ₂, hparts, h₂⟩ := h₁.loads "parts.mjs" (by decide) (by decide +kernel)
  obtain ⟨σ₃, hloop, h₃⟩ := h₂.loads "loop.mjs" (by decide) (by decide +kernel)
  obtain ⟨σ₄, himpl, -⟩ := h₃.loads "impl.mjs" (by decide) (by decide +kernel)
  obtain ⟨obj, hown⟩ := follows_impl_linked himpl
  have himport : (linkedModule "cli.mjs").imports.get? "main" = some ⟨"./index.mjs", "main"⟩ := by
    decide +kernel
  have hpassed : (linkedModule "index.mjs").exports.get? "main" =
      some (.passed ⟨"./parts.mjs", "command"⟩) := get?_of_passed? (by decide +kernel)
  refine ⟨⟨obj, linkedModule "impl.mjs"⟩, σ₄, ?_, rfl⟩
  refine .move (.ofImport himport) (.imported (leadsTo_linked (by simp)) (by simp) hindex ?_)
  refine .move (.ofPassed hpassed)
    (.imported (leadsTo_linked (by simp)) (by decide +kernel) hparts ?_)
  refine .move (.ofStars (exports_linked _ (by simp))) ?_
  rw [stars_linked.1]
  exact .nextStar (follows_loop_linked hloop) (.star hown)

theorem resolve_exact_linked :
    let m := linkedModule "cli.mjs"
    let σ := caching linked m
    Keyed linked σ ∧ σ.modules.get? (linked.files.absolute m.path) = some m ∧
      σ.cache.enabled = true ∧ linked.KeysApart ∧
      ∃ l τ, Unbounded.follow linked false [] (.source (.bound "main") m) σ = some (.ok l, τ) ∧
        (resolve linked (.bound "main") m).run σ = (.ok l, τ) ∧ Later linked σ τ ∧
        Reaches linked false τ (.source (.bound "main") m) l ∧
        l.owner = linkedModule "impl.mjs" := by
  intro m σ
  have hk : Keyed linked σ := keyed_caching linked m
  have hm : σ.modules.get? (linked.files.absolute m.path) = some m := held_caching linked m
  obtain ⟨l, τ, hfollows, howner⟩ := follows_linked
  obtain ⟨r, υ, hend, hrun, hlater, -, hreaches⟩ :=
    resolve_exact hk hm (fun _ ↦ keysApart_linked) (.bound "main") false
  obtain ⟨rfl, rfl⟩ := Prod.mk.inj (Option.some_inj.1 (hfollows.eval.symm.trans hend))
  exact ⟨hk, hm, rfl, keysApart_linked, l, τ, hend, hrun, hlater, hreaches l rfl, howner⟩

end linked

end CommandCoverage
