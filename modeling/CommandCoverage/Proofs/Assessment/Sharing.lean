import CommandCoverage.Proofs.Assessment.Comparing
import CommandCoverage.Proofs.Report.Samples
import Mathlib.Logic.Function.Basic

namespace CommandCoverage

open Script Analysis CacheKey

section calls

/-- What a run gives: its outcome, the warnings about commands, and what it showed on the way. -/
structure Reply (α : Type) where
  outcome : Except Failure α
  warnings : List Warning
  notices : List (Stage × Warning)

inductive Call where
  | discover
  | analyze
  | recommend (priority : String)
  | clear

inductive Answer where
  | commands (r : Reply Command)
  | assessment (r : Reply Assessment)
  | recommendations (r : Reply (Except ChoiceFault (List Recommendation)))
  | cleared

namespace Analysis

def reply {α : Type} (x : Analysis (Except Failure α)) : Analysis (Reply α) := do
  let outcome ← x
  let s ← get
  return { outcome, warnings := s.warnings, notices := s.notices }

/-- The recommendations of the priority that a word names. A word that names none is noticed after
the analysis. -/
def recommendWord (p : Project) (word : String) :
    Analysis (Except Failure (Except ChoiceFault (List Recommendation))) :=
  match Priority.choice word with
  | .ok priority => do return (← recommend p priority).map .ok
  | .error fault => do return (← recommend p none).map fun _ ↦ .error fault

end Analysis

def Call.perform (p : Project) : Call → Analysis Answer
  | .discover => do return .commands (← reply (commands p))
  | .analyze => do return .assessment (← reply (assess p))
  | .recommend priority => do return .recommendations (← reply (recommendWord p priority))
  | .clear => do
    modify fun s ↦ { s with cache := s.cache.clear }
    return .cleared

structure Leftovers where
  modules : Table Module := {}
  warnings : List Warning := []

structure Pool (ι : Type) where
  settings : ι → Settings
  cache : ParseCache Float Node
  leftovers : ι → Leftovers := fun _ ↦ {}

structure Visit (ι : Type) where
  engine : ι
  call : Call
  files : FileTree
  now : Float := 0
  elapsed : Nat → Float := fun _ ↦ 0
  date : String := ""

def Project.uncached (p : Project) : Project :=
  { p with settings := { p.settings with cacheEnabled := false } }

/-- An analysis of the project comes to a path without a key: that of its entry file, or that of a
test file after test files that are searched. -/
def Project.Stumbles (p : Project) : Prop :=
  p.workspace.Unkeyed p.settings.cliPath ∨
    ∃ root, ((commands p).run p.uncached.settings.session).1 = .ok root ∧
      p.workspace.StumblesIn p.settings.search root

def Call.Stumbles (p : Project) : Call → Prop
  | .discover => p.workspace.Unkeyed p.settings.cliPath
  | .analyze | .recommend _ => p.Stumbles
  | .clear => False

namespace Pool

variable {ι : Type}

def project (pool : Pool ι) (v : Visit ι) : Project where
  settings := pool.settings v.engine
  files := v.files
  now := v.now
  elapsed := v.elapsed
  date := v.date

def session (pool : Pool ι) (engine : ι) : Session where
  cache := pool.cache
  modules := (pool.leftovers engine).modules
  warnings := (pool.leftovers engine).warnings

def fresh (pool : Pool ι) (v : Visit ι) : Answer :=
  let p := (pool.project v).uncached
  ((v.call.perform p).run p.settings.session).1

def sources (pool : Pool ι) (visits : List (Visit ι)) : Set Pair :=
  {x | ∃ v ∈ visits, x ∈ (pool.project v).workspace.sources}

variable [DecidableEq ι]

def visit (pool : Pool ι) (v : Visit ι) : Answer × Pool ι :=
  let (answer, s) := (v.call.perform (pool.project v)).run (pool.session v.engine)
  (answer, { pool with
    cache := s.cache
    leftovers := Function.update pool.leftovers v.engine ⟨s.modules, s.warnings⟩ })

def answers (pool : Pool ι) : List (Visit ι) → List Answer
  | [] => []
  | v :: visits => (pool.visit v).1 :: (pool.visit v).2.answers visits

end Pool

end calls

variable {sources : Set Pair} {cached : Bool} {w : Workspace} {p : Project} {σ τ : Session}
  {α β : Type}

section performing

theorem oblivious_warnings {f : List Warning → Analysis α}
    (hf : ∀ ws, Oblivious sources cached (f ws)) :
    Oblivious sources cached (do let s ← get; f s.warnings) := by
  intro σ τ h
  have hrun (σ : Session) :
      (do let s ← get; f s.warnings : Analysis α).run σ = (f σ.warnings).run σ := rfl
  rw [hrun, hrun, ← h.warnings]
  exact hf _ σ τ h

theorem compares_commands (hw : p.workspace.Apart sources) :
    Compares sources (fun _ ↦ p.workspace.Unkeyed p.settings.cliPath) (commands p) :=
  compares_discover hw p.settings.cliPath

theorem ofCoverage_encodes {g : Goals} {o : Origin} {ws : List Warning} {c : Coverage} :
    ¬FailsToEncode (Report.ofCoverage g o ws c) := by
  rintro ⟨message, h⟩
  unfold Report.ofCoverage at h
  obtain ⟨message', he⟩ := Recommendation.ofCoverage_eq_error (except_map_eq_error_iff.1 h)
  exact absurd (Failure.unexpected.inj he).1 (by decide)

theorem compares_assess (hw : p.workspace.Apart sources) :
    Compares sources (fun τ ↦ p.workspace.Unkeyed p.settings.cliPath ∨
      ∃ root, ((commands p).run τ).1 = .ok root ∧ p.workspace.StumblesIn p.settings.search root)
      (assess p) := by
  unfold assess
  refine Compares.bind (compares_commands hw)
    (Q := fun root _ ↦ p.workspace.StumblesIn p.settings.search root) ?_ fun root ↦ ?_
  · exact fun _ ↦ rfl
  refine Compares.congr ((compares_searchTests hw p.settings.search root).bind
    (Q := fun _ _ ↦ False) ?_ fun finding ↦ ?_) fun τ _ ↦ by simp
  · exact fun _ ↦ rfl
  refine .of_oblivious (fun cached ↦ ?_) fun τ _ ↦ ?_
  · refine (Oblivious.forM (fun x ↦ oblivious_notify .coverage x) _).bind fun _ ↦ ?_
    let assessment (ws : List Warning) : Except Failure Assessment :=
      let coverage := Coverage.compute root finding.invocations
      (Report.ofCoverage p.settings.goals (p.origin finding) (ws ++ finding.warnings)
        coverage).map ({ finding, coverage, report := · })
    exact oblivious_warnings (f := fun ws ↦ pure (assessment ws)) fun ws ↦ .pure (assessment ws)
  · rintro ⟨message, h⟩
    exact ofCoverage_encodes ⟨message, except_map_eq_error_iff.1 h⟩

theorem compares_recommend (hw : p.workspace.Apart sources) (priority : Option Priority) :
    Compares sources (fun τ ↦ p.workspace.Unkeyed p.settings.cliPath ∨
      ∃ root, ((commands p).run τ).1 = .ok root ∧ p.workspace.StumblesIn p.settings.search root)
      (recommend p priority) :=
  (compares_assess hw).map _

theorem compares_recommendWord (hw : p.workspace.Apart sources) (word : String) :
    Compares sources (fun τ ↦ p.workspace.Unkeyed p.settings.cliPath ∨
      ∃ root, ((commands p).run τ).1 = .ok root ∧ p.workspace.StumblesIn p.settings.search root)
      (recommendWord p word) := by
  unfold recommendWord
  split <;> exact (compares_recommend hw _).map _

end performing

section sharing

def Forgetful (x : Analysis α) : Prop := ∀ σ, x.run σ.begun = x.run σ

theorem Forgetful.bind {x : Analysis α} (hx : Forgetful x) (f : α → Analysis β) :
    Forgetful (x >>= f) := by
  intro σ
  rw [run_bind, run_bind, hx]

theorem forgetful_begin (f : PUnit → Analysis α) :
    Forgetful (modify (fun s ↦ { s with modules := {}, warnings := [] }) >>= f) :=
  fun _ ↦ rfl

theorem forgetful_discover (w : Workspace) (entry : String) : Forgetful (discover w entry) := by
  unfold discover
  exact forgetful_begin _

theorem forgetful_commands (p : Project) : Forgetful (commands p) :=
  forgetful_discover p.workspace p.settings.cliPath

theorem forgetful_assess (p : Project) : Forgetful (assess p) :=
  (forgetful_commands p).bind _

theorem forgetful_recommendWord (p : Project) (word : String) :
    Forgetful (recommendWord p word) := by
  unfold recommendWord
  split <;> exact ((forgetful_assess p).bind _).bind _

theorem Forgetful.reply {x : Analysis (Except Failure α)} (hx : Forgetful x) :
    Forgetful (Analysis.reply x) :=
  hx.bind _

theorem run_reply (x : Analysis (Except Failure α)) (σ : Session) : (Analysis.reply x).run σ =
    (⟨(x.run σ).1, (x.run σ).2.warnings, (x.run σ).2.notices⟩, (x.run σ).2) :=
  rfl

theorem outcome_eq_of_discover {q : Project}
    (h : ((Call.discover.perform p).run σ).1 = ((Call.discover.perform q).run τ).1) :
    ((commands p).run σ).1 = ((commands q).run τ).1 := by
  have hreply : ((reply (commands p)).run σ).1 = ((reply (commands q)).run τ).1 :=
    Answer.commands.inj h
  rw [run_reply, run_reply] at hreply
  exact (Reply.mk.inj hreply).1

/-- What an engine replies with a cache is what it replies without one unless it stumbles. -/
theorem reply_eq_iff {x : Analysis (Except Failure α)} {P : Session → Prop}
    (hx : Compares sources P x) (hf : Forgetful x)
    (hk : σ.cache.enabled = true → σ.cache.Keeps (IsTree sources)) (hd : τ.cache.enabled = false)
    (hn : σ.notices = τ.notices) :
    (((reply x).run σ).1 = ((reply x).run τ).1 ↔ (σ.cache.enabled = true → ¬P τ.begun)) ∧
      (σ.cache.enabled = true → ((reply x).run σ).2.cache.Keeps (IsTree sources)) ∧
      ((reply x).run σ).2.cache.enabled = σ.cache.enabled := by
  have halike : Alike sources σ.cache.enabled σ.begun τ.begun := ⟨rfl, rfl, hn, hk, rfl, hd⟩
  obtain ⟨hagrees, hstumbles, hencodes⟩ := hx _ _ _ halike
  rw [hf, hf] at hagrees
  rw [hf] at hstumbles hencodes
  rw [run_reply, run_reply]
  by_cases hp : σ.cache.enabled = true → ¬P τ.begun
  · obtain ⟨hvalue, hstates⟩ := hagrees hp
    refine ⟨iff_of_true ?_ hp, hstates.keeps, hstates.enabled⟩
    rw [hvalue, hstates.warnings, hstates.notices]
  · obtain ⟨hc, hstumbling⟩ : σ.cache.enabled = true ∧ P τ.begun := by tauto
    obtain ⟨hfails, hkept, hon⟩ := hstumbles hc hstumbling
    refine ⟨iff_of_false (fun hsame ↦ hencodes ?_) hp, fun _ ↦ hkept, hon.trans hc.symm⟩
    exact (Reply.mk.inj hsame).1 ▸ hfails

/-- What a call answers does not depend on the cache, in which it keeps the trees right. -/
theorem Call.perform_eq_iff (call : Call) (hw : p.workspace.Apart sources)
    (hk : σ.cache.enabled = true → σ.cache.Keeps (IsTree sources))
    (hτ : τ = p.uncached.settings.session) (hn : σ.notices = τ.notices) :
    (((call.perform p).run σ).1 = ((call.perform p).run τ).1 ↔
        (σ.cache.enabled = true → ¬call.Stumbles p)) ∧
      (σ.cache.enabled = true → ((call.perform p).run σ).2.cache.Keeps (IsTree sources)) ∧
      ((call.perform p).run σ).2.cache.enabled = σ.cache.enabled := by
  subst hτ
  have hd : p.uncached.settings.session.cache.enabled = false := rfl
  cases call with
  | discover =>
    obtain ⟨hiff, hkept⟩ := reply_eq_iff (compares_commands hw) (forgetful_commands p) hk hd hn
    exact ⟨Answer.commands.injEq .. ▸ hiff, hkept⟩
  | analyze =>
    obtain ⟨hiff, hkept⟩ := reply_eq_iff (compares_assess hw) (forgetful_assess p) hk hd hn
    exact ⟨Answer.assessment.injEq .. ▸ hiff, hkept⟩
  | recommend word =>
    obtain ⟨hiff, hkept⟩ := reply_eq_iff (compares_recommendWord hw word)
      (forgetful_recommendWord p word) hk hd hn
    exact ⟨Answer.recommendations.injEq .. ▸ hiff, hkept⟩
  | clear => exact ⟨iff_of_true rfl fun _ ↦ not_false, fun _ ↦ ParseCache.keeps_clear _ _, rfl⟩

theorem Call.perform_uncached (call : Call) (p : Project) :
    call.perform p.uncached = call.perform p := by
  cases call <;> rfl

theorem Call.not_stumbles (call : Call) (h : p.files.surrogates = fun _ ↦ none) :
    ¬call.Stumbles p := by
  have hkeyed (path : String) : ¬p.workspace.Unkeyed path := by
    rintro ⟨-, f, hf⟩
    have hnone : p.workspace.keyFailure? true path = none := by
      have hs : p.workspace.files.surrogates = fun _ ↦ none := h
      rw [Workspace.keyFailure?, if_pos rfl, hs, Text.encodeFault?_none]
      rfl
    rw [hnone] at hf
    cases hf
  have hsearch {s : Search} {root : Command} {files : List String} :
      ¬p.workspace.SearchesUnkeyed s root files := by
    intro hs
    induction hs with
    | here hu => exact hkeyed _ hu
    | later _ _ ih => exact ih
  have hproject : ¬p.Stumbles := by
    rintro (hu | ⟨root, -, files, -, hs⟩)
    · exact hkeyed _ hu
    · exact hsearch hs
  cases call with
  | discover => exact hkeyed _
  | analyze | recommend => exact hproject
  | clear => exact not_false

namespace Pool

variable {ι : Type} [DecidableEq ι] {pool : Pool ι} {v : Visit ι} {visits : List (Visit ι)}

theorem visit_answer (pool : Pool ι) (v : Visit ι) : (pool.visit v).1 =
    ((v.call.perform (pool.project v)).run (pool.session v.engine)).1 :=
  rfl

/-- A visit answers like a new engine unless it stumbles, and keeps the trees in the cache right. -/
theorem visit_eq_iff (hw : (pool.project v).workspace.Apart sources)
    (hk : pool.cache.enabled = true → pool.cache.Keeps (IsTree sources)) :
    ((pool.visit v).1 = pool.fresh v ↔
        (pool.cache.enabled = true → ¬v.call.Stumbles (pool.project v))) ∧
      (pool.cache.enabled = true → (pool.visit v).2.cache.Keeps (IsTree sources)) ∧
      (pool.visit v).2.cache.enabled = pool.cache.enabled := by
  have hcall := v.call.perform_eq_iff (σ := pool.session v.engine)
    (τ := (pool.project v).uncached.settings.session) hw hk rfl rfl
  rw [fresh, Call.perform_uncached]
  exact hcall

theorem answers_eq_iff (hw : ∀ v ∈ visits, (pool.project v).workspace.Apart sources)
    (hk : pool.cache.enabled = true → pool.cache.Keeps (IsTree sources)) :
    pool.answers visits = visits.map pool.fresh ↔
      (pool.cache.enabled = true → ∀ v ∈ visits, ¬v.call.Stumbles (pool.project v)) := by
  induction visits generalizing pool with
  | nil => exact iff_of_true rfl fun _ ↦ nofun
  | cons v visits ih =>
    obtain ⟨hv, hvs⟩ := List.forall_mem_cons.1 hw
    obtain ⟨hanswer, hkept, henabled⟩ := visit_eq_iff hv hk
    -- The settings of the engines stay, and so does what new ones answer.
    have hrest : (pool.visit v).2.answers visits = visits.map pool.fresh ↔
        (pool.cache.enabled = true → ∀ v ∈ visits, ¬v.call.Stumbles (pool.project v)) := by
      have hih := @ih (pool.visit v).2 hvs (by rwa [henabled])
      rw [henabled] at hih
      exact hih
    rw [answers, List.map_cons, List.cons.injEq, hanswer, hrest, List.forall_mem_cons]
    tauto

/-- The answers of engines around a cache that is empty at first, whatever its bounds, are those of
new engines without a cache, if no two byte strings that are hashed share what is kept of the
digest, exactly if the cache is off or no call comes to a path without a key. -/
theorem answers_eq_fresh_iff (pool : Pool ι) (visits : List (Visit ι))
    (hempty : pool.cache.entries.entries = [])
    (hdigest : Set.InjOn digest (hashedOf (pool.sources visits))) :
    pool.answers visits = visits.map pool.fresh ↔
      (pool.cache.enabled = true → ∀ v ∈ visits, ¬v.call.Stumbles (pool.project v)) := by
  have hapart : ∀ v ∈ visits, (pool.project v).workspace.Apart (pool.sources visits) :=
    fun v hv ↦ ⟨fun x hx ↦ ⟨v, hv, hx⟩, injOn_ofNormalized hdigest⟩
  exact answers_eq_iff hapart fun _ ↦ ParseCache.keeps_of_empty hempty

/-- The text of a file that defines a command with a name. -/
def definition (name : String) : String :=
  "defineCommand(\x7b meta: \x7b name: '" ++ name ++ "' \x7d \x7d)"

def definingTree (name : String) : FileTree :=
  .single "a.mjs" (definition name).toUTF8.toList

/-- Projects that define a command in a single file, in one way or another. -/
def definingFiles : List (String × List String) :=
  [("a.mjs", ["old", "new"]), ("\ue0ff.mjs", ["cli"])]

theorem injOn_digest_defining {sources : Set Pair} {path : String} {names : List String}
    (hpath : (path, names) ∈ definingFiles)
    (h : ∀ x ∈ sources, ∃ name ∈ names, ∃ (w : Workspace) (s : Text.Surrogates), w.files =
      { FileTree.single path (definition name).toUTF8.toList with surrogates := s } ∧
        x ∈ w.sources) :
    Set.InjOn digest (hashedOf sources) := by
  let known (x : String × List String) : List Pair := x.2.flatMap fun name ↦
    [(Path.normalize ("/" ++ x.1), definition name), (Path.normalize ("//" ++ x.1), definition name)]
  have hdecode : ∀ x ∈ definingFiles, ∀ name ∈ x.2,
      Text.decodeUtf8 (definition name).toUTF8.toList = .ok (definition name) := by
    simp only [Text.toList_toUTF8]
    decide +kernel
  -- The bytes of a text are read off its characters, which the kernel computes with.
  have hdigests : ∀ x ∈ definingFiles, ∀ y ∈ known x, ∀ z ∈ known x,
      digest (hashed y.1 y.2) = digest (hashed z.1 z.2) → hashed y.1 y.2 = hashed z.1 z.2 := by
    simp only [hashed, Text.toList_toUTF8]
    decide +kernel
  refine injOn_digest_of_known (fun x hx ↦ ?_) (hdigests _ hpath)
  obtain ⟨name, hname, w, s, hfiles, hx⟩ := h x hx
  exact List.mem_flatMap.2 ⟨name, hname, mem_of_single hfiles (hdecode _ hpath name hname) hx⟩

def sharing : Pool Bool where
  settings first := { cliPath := if first then "a.mjs" else "//a.mjs" }
  cache := { ttl := 3600, maxSize := 1 }

def sharedVisits : List (Visit Bool) :=
  [{ engine := true, call := .discover, files := definingTree "old" },
    { engine := false, call := .analyze, files := definingTree "new", now := 9 },
    { engine := true, call := .clear, files := definingTree "new" },
    { engine := true, call := .recommend "high", files := definingTree "old" }]

theorem answers_eq_fresh_sharing :
    sharing.cache.entries.entries = [] ∧
    Set.InjOn digest (hashedOf (sharing.sources sharedVisits)) ∧
    sharing.cache.enabled = true ∧
    (∀ v ∈ sharedVisits, ¬v.call.Stumbles (sharing.project v)) ∧
    sharing.answers sharedVisits = sharedVisits.map sharing.fresh := by
  have hfiles : ∀ v ∈ sharedVisits, ∃ name ∈ ["old", "new"], v.files = definingTree name := by
    simp [sharedVisits]
  have hdigest : Set.InjOn digest (hashedOf (sharing.sources sharedVisits)) := by
    refine injOn_digest_defining List.mem_cons_self ?_
    rintro x ⟨v, hv, hx⟩
    obtain ⟨name, hname, hfiles⟩ := hfiles v hv
    exact ⟨name, hname, _, fun _ ↦ none, hfiles, hx⟩
  have hplain : ∀ v ∈ sharedVisits, ¬v.call.Stumbles (sharing.project v) :=
    fun v hv ↦ v.call.not_stumbles (by
      obtain ⟨name, -, hfiles⟩ := hfiles v hv
      exact congrArg FileTree.surrogates hfiles)
  exact ⟨rfl, hdigest, rfl, hplain,
    (answers_eq_fresh_iff sharing sharedVisits rfl hdigest).2 fun _ ↦ hplain⟩

def oddTree : FileTree :=
  { FileTree.single "\ue0ff.mjs" (definition "cli").toUTF8.toList with
    surrogates := fun c ↦ if c = '\ue0ff' then some 0xdcff else none }

def oddPool : Pool Unit where
  settings _ := { cliPath := "\ue0ff.mjs" }
  cache := { ttl := 3600, maxSize := 1 }

theorem exists_answers_ne_fresh : ∃ visits, oddPool.cache.entries.entries = [] ∧
    Set.InjOn digest (hashedOf (oddPool.sources visits)) ∧
    oddPool.answers visits ≠ visits.map oddPool.fresh := by
  let v : Visit Unit := { engine := (), call := .discover, files := oddTree }
  let w := (oddPool.project v).workspace
  have htext : Text.decodeUtf8 (definition "cli").toUTF8.toList = .ok (definition "cli") ∧
      (definition "cli").toUTF8.toList.length ≤ w.maxFileSize := by
    simp only [Text.toList_toUTF8]
    decide +kernel
  have hread : w.files.read w.maxFileSize "\ue0ff.mjs" =
      .ok ⟨"\ue0ff.mjs", definition "cli", (definition "cli").toUTF8.toList.length⟩ :=
    read_eq_ok_iff.2 ⟨_, rfl, htext.2, htext.1, rfl, rfl⟩
  have hkey : w.keyFailure? true "\ue0ff.mjs" ≠ none := by decide +kernel
  have hplaced : ¬w.Lost "\ue0ff.mjs" := fun h ↦ by cases h.2
  have hcached : ∃ kind message, ((discover w "\ue0ff.mjs").run (oddPool.session ())).1 =
      .error (.unexpected kind message) :=
    (discover_unexpected_iff (trustsAt_of_empty rfl)).2 fun ha ↦ hkey (ha.keyed _ hread)
  have hfresh : ¬∃ kind message,
      ((discover w "\ue0ff.mjs").run (oddPool.project v).uncached.settings.session).1 =
        .error (.unexpected kind message) := by
    rw [discover_unexpected_iff (trustsAt_of_empty rfl)]
    exact not_not_intro ⟨hplaced, rfl, fun _ _ ↦ rfl⟩
  have hdigest : Set.InjOn digest (hashedOf (oddPool.sources [v])) := by
    refine injOn_digest_defining (List.mem_cons_of_mem _ List.mem_cons_self) ?_
    rintro x ⟨u, hu, hx⟩
    obtain rfl := List.mem_singleton.1 hu
    exact ⟨"cli", List.mem_cons_self, _, _, rfl, hx⟩
  refine ⟨[v], rfl, hdigest, fun h ↦ hfresh ?_⟩
  obtain ⟨kind, message, he⟩ := hcached
  have hsame := (List.cons.inj h).1
  rw [visit_answer, fresh] at hsame
  exact ⟨kind, message, (outcome_eq_of_discover hsame).symm.trans he⟩

end Pool

end sharing

end CommandCoverage
