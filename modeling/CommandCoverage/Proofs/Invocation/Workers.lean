import CommandCoverage.Proofs.Invocation.Searching
import Mathlib.Logic.Relation

namespace CommandCoverage

open Script Analysis

inductive Progress where
  | waiting
  | parsing (content : String)
  | done (r : Except Failure FileFinding)

structure Crew where
  session : Session
  files : List (String × Progress)

def Progress.isWaiting : Progress → Bool
  | .waiting => true
  | _ => false

def Progress.isParsing : Progress → Bool
  | .parsing _ => true
  | _ => false

def Progress.weight : Progress → Nat
  | .waiting => 2
  | .parsing _ => 1
  | .done _ => 0

/-- Reads a file and asks the cache for its tree. -/
def Search.take (w : Workspace) (s : Search) (root : Command) (path : String) :
    Analysis Progress :=
  match w.files.read w.maxFileSize path with
  | .error f => return .done (.error f)
  | .ok source => do
    match w.keyFailure? (← get).cache.enabled path with
    | some f => return .done (.error f)
    | none =>
      match ← w.lookUp path source.content with
      | some tree => return .done (← s.conclude root path (.ok tree))
      | none => return .parsing source.content

def Search.complete (w : Workspace) (s : Search) (root : Command) (path content : String) :
    Analysis Progress := do
  return .done (← s.conclude root path (← w.parseAnew path content))

namespace Crew

def busy (c : Crew) : Nat := c.files.countP (·.2.isParsing)

def weight (c : Crew) : Nat := (c.files.map (·.2.weight)).sum

/-- A worker takes the first file that waits, or completes one that was taken. -/
inductive Step (w : Workspace) (s : Search) (root : Command) (workers : Nat) : Crew → Crew → Prop
  | take {σ τ : Session} {before after : List (String × Progress)} {path : String} {p : Progress}
      (hfirst : ∀ x ∈ before, x.2 ≠ .waiting)
      (hfree : busy ⟨σ, before ++ (path, .waiting) :: after⟩ < workers)
      (hrun : (s.take w root path).run σ = (p, τ)) :
      Step w s root workers ⟨σ, before ++ (path, .waiting) :: after⟩
        ⟨τ, before ++ (path, p) :: after⟩
  | complete {σ τ : Session} {before after : List (String × Progress)} {path content : String}
      {p : Progress} (hrun : (s.complete w root path content).run σ = (p, τ)) :
      Step w s root workers ⟨σ, before ++ (path, .parsing content) :: after⟩
        ⟨τ, before ++ (path, p) :: after⟩

/-- What the search of a crew gives: everything found, or the first failure in the order of the
files, whether or not those after it are searched. -/
inductive Yields : Crew → Except Failure (List (String × FileFinding)) → Prop
  | found {σ : Session} {found : List (String × FileFinding)} :
      Yields ⟨σ, found.map fun x ↦ (x.1, .done (.ok x.2))⟩ (.ok found)
  | failed {σ : Session} {found : List (String × FileFinding)} {path : String} {f : Failure}
      {after : List (String × Progress)} :
      Yields ⟨σ, found.map (fun x ↦ (x.1, .done (.ok x.2))) ++ (path, .done (.error f)) :: after⟩
        (.error f)

end Crew

/-- What a search with some workers can give. Several of them are only used for several files. -/
inductive Searches (w : Workspace) (s : Search) (root : Command) (workers : Nat) (σ : Session) :
    Except Failure Finding → Prop
  | inTurn (h : workers ≤ 1 ∨ ∀ files, w.files.listFiles s.selection s.directory = .ok files →
      files.length ≤ 1) : Searches w s root workers σ ((searchTests w s root).run σ).1
  | together {files : List String} {crew : Crew}
      {r : Except Failure (List (String × FileFinding))} (hw : 1 < workers)
      (hl : w.files.listFiles s.selection s.directory = .ok files) (hf : 1 < files.length)
      (hrun : Relation.ReflTransGen (Crew.Step w s root workers)
        ⟨σ, files.map fun path ↦ (path, .waiting)⟩ crew)
      (hy : crew.Yields r) : Searches w s root workers σ (r.map .ofFiles)

variable {w : Workspace} {s : Search} {root : Command} {path content : String} {workers : Nat}
  {σ τ : Session} {c c' : Crew} {p : Progress} {cached : Bool}

def Progress.Sound (w : Workspace) (cached : Bool) (s : Search) (root : Command) (path : String) :
    Progress → Prop
  | .waiting => True
  | .parsing content => w.keyFailure? cached path = none ∧
      ∃ source, w.files.read w.maxFileSize path = .ok source ∧ source.content = content
  | .done r => r = w.finding cached s root path

theorem take_sound (h : w.Trusts σ.cache) (hrun : (s.take w root path).run σ = (p, τ)) :
    w.Trusts τ.cache ∧ τ.cache.enabled = σ.cache.enabled ∧
      p.Sound w σ.cache.enabled s root path ∧ p.weight < Progress.waiting.weight := by
  unfold Search.take at hrun
  cases hr : w.files.read w.maxFileSize path with
  | error f =>
    rw [hr] at hrun
    obtain ⟨rfl, rfl⟩ := Prod.mk.inj hrun
    exact ⟨h, rfl, (finding_of_error hr).symm, Nat.zero_lt_succ 1⟩
  | ok source =>
    obtain ⟨hkept, htree⟩ := lookUp_trusted h hr
    have henabled := enabled_lookUp w path source.content σ
    simp only [hr, StateT.run_bind, StateT.run_get, pure_bind] at hrun
    cases hk : w.keyFailure? σ.cache.enabled path with
    | some f =>
      rw [hk] at hrun
      obtain ⟨rfl, rfl⟩ := Prod.mk.inj hrun
      exact ⟨h, rfl, (finding_of_unkeyed hr hk).symm, Nat.zero_lt_succ 1⟩
    | none =>
      simp only [hk] at hrun
      rw [run_bind] at hrun
      cases hl : ((w.lookUp path source.content).run σ).1 with
      | none =>
        rw [hl] at hrun
        obtain ⟨rfl, rfl⟩ := Prod.mk.inj hrun
        exact ⟨hkept, henabled, ⟨hk, source, hr, rfl⟩, Nat.lt_succ_self 1⟩
      | some tree =>
        rw [hl] at hrun
        dsimp only at hrun
        rw [run_bind, ← htree tree hl] at hrun
        obtain ⟨hresult, hcache⟩ := conclude_parsed s root path source.content
          ((w.lookUp path source.content).run σ).2
        obtain ⟨rfl, rfl⟩ := Prod.mk.inj hrun
        exact ⟨hcache ▸ hkept, (congrArg _ hcache).trans henabled,
          hresult.trans (finding_of_keyed hr hk).symm, Nat.zero_lt_succ 1⟩

theorem complete_sound (h : w.Trusts σ.cache)
    (hp : (Progress.parsing content).Sound w cached s root path)
    (hrun : (s.complete w root path content).run σ = (p, τ)) :
    w.Trusts τ.cache ∧ τ.cache.enabled = σ.cache.enabled ∧ p.Sound w cached s root path ∧
      p.weight < (Progress.parsing content).weight := by
  obtain ⟨hk, source, hr, rfl⟩ := hp
  obtain ⟨hkept, hparsed⟩ := parseAnew_trusted h hr
  have henabled := enabled_parseAnew w path source.content σ
  obtain ⟨hresult, hcache⟩ := conclude_parsed s root path source.content
    ((w.parseAnew path source.content).run σ).2
  rw [Search.complete, run_bind, hparsed, run_bind] at hrun
  obtain ⟨rfl, rfl⟩ := Prod.mk.inj hrun
  exact ⟨hcache ▸ hkept, (congrArg _ hcache).trans henabled,
    hresult.trans (finding_of_keyed hr hk).symm, Nat.zero_lt_succ 0⟩

namespace Crew

/-- The workers of a crew search some files, and all that they did agrees with these. -/
structure Sound (w : Workspace) (cached : Bool) (s : Search) (root : Command)
    (files : List String) (c : Crew) : Prop where
  trusts : w.Trusts c.session.cache
  enabled : c.session.cache.enabled = cached
  names : c.files.map (·.1) = files
  progress : ∀ x ∈ c.files, x.2.Sound w cached s root x.1

variable {files : List String}

theorem sound_start (h : w.Trusts σ.cache) (files : List String) :
    Sound w σ.cache.enabled s root files ⟨σ, files.map fun path ↦ (path, .waiting)⟩ := by
  refine ⟨h, rfl, by simp [Function.comp_def], fun x hx ↦ ?_⟩
  obtain ⟨path, -, rfl⟩ := List.mem_map.1 hx
  exact trivial

theorem Sound.put {before after : List (String × Progress)} {q : Progress}
    (h : Sound w cached s root files ⟨σ, before ++ (path, p) :: after⟩) (ht : w.Trusts τ.cache)
    (he : τ.cache.enabled = σ.cache.enabled) (hq : q.Sound w cached s root path) :
    Sound w cached s root files ⟨τ, before ++ (path, q) :: after⟩ := by
  refine ⟨ht, he.trans h.enabled, ?_, fun x hx ↦ ?_⟩
  · simpa using h.names
  · rcases List.mem_append.1 hx with hx | hx
    · exact h.progress x (List.mem_append_left _ hx)
    · rcases List.mem_cons.1 hx with rfl | hx
      · exact hq
      · exact h.progress x (List.mem_append_right _ (List.mem_cons_of_mem _ hx))

theorem weight_put_lt {before after : List (String × Progress)} {q : Progress}
    (h : q.weight < p.weight) :
    weight ⟨τ, before ++ (path, q) :: after⟩ < weight ⟨σ, before ++ (path, p) :: after⟩ := by
  simp only [weight, List.map_append, List.map_cons, List.sum_append, List.sum_cons]
  omega

theorem Step.sound (h : Step w s root workers c c') (hc : c.Sound w cached s root files) :
    c'.Sound w cached s root files ∧ c'.weight < c.weight := by
  cases h with
  | take _ _ hrun =>
    obtain ⟨ht, he, hp, hlt⟩ := take_sound hc.trusts hrun
    rw [hc.enabled] at hp
    exact ⟨hc.put ht he hp, weight_put_lt hlt⟩
  | complete hrun =>
    have hparsing := hc.progress _ (List.mem_append_right _ List.mem_cons_self)
    obtain ⟨ht, he, hp, hlt⟩ := complete_sound hc.trusts hparsing hrun
    exact ⟨hc.put ht he hp, weight_put_lt hlt⟩

theorem Sound.run (hc : c.Sound w cached s root files)
    (h : Relation.ReflTransGen (Step w s root workers) c c') :
    c'.Sound w cached s root files := by
  induction h with
  | refl => exact hc
  | tail _ hstep ih => exact (hstep.sound ih).1

theorem exists_step (hw : 0 < workers) (hn : ∃ x ∈ c.files, x.2.weight ≠ 0) :
    ∃ c', Step w s root workers c c' := by
  obtain ⟨σ, progress⟩ := c
  by_cases hb : ∃ x ∈ progress, x.2.isParsing = true
  · obtain ⟨⟨path, q⟩, hx, hq⟩ := hb
    obtain ⟨before, after, rfl⟩ := List.append_of_mem hx
    cases q with
    | parsing content => exact ⟨_, .complete rfl⟩
    | waiting => cases hq
    | done r => cases hq
  · -- No worker is busy, so one can take the first file that waits.
    have hidle : ∀ x ∈ progress, ¬x.2.isParsing = true := fun x hx hp ↦ hb ⟨x, hx, hp⟩
    have hbusy : busy ⟨σ, progress⟩ = 0 := List.countP_eq_zero.2 hidle
    have hwaits : ∃ x ∈ progress, x.2.isWaiting = true := by
      obtain ⟨⟨path, q⟩, hx, hq⟩ := hn
      refine ⟨_, hx, ?_⟩
      cases q with
      | waiting => rfl
      | parsing => exact absurd rfl (hidle _ hx)
      | done => exact absurd rfl hq
    obtain ⟨⟨path, q⟩, hfind⟩ := Option.isSome_iff_exists.1 (List.find?_isSome.2 hwaits)
    obtain ⟨hq, before, after, rfl, hbefore⟩ := List.find?_eq_some_iff_append.1 hfind
    cases q with
    | waiting =>
      refine ⟨_, .take (fun x hx hwait ↦ ?_) (by omega) rfl⟩
      have hnot := hbefore x hx
      rw [hwait] at hnot
      cases hnot
    | parsing => cases hq
    | done => cases hq

theorem exists_finished (hw : 0 < workers) (hc : c.Sound w cached s root files) :
    ∃ c', Relation.ReflTransGen (Step w s root workers) c c' ∧ ∀ x ∈ c'.files, x.2.weight = 0 := by
  induction hn : c.weight using Nat.strong_induction_on generalizing c with
  | _ n ih =>
    by_cases hrest : ∃ x ∈ c.files, x.2.weight ≠ 0
    · obtain ⟨c₁, hstep⟩ := @exists_step w s root _ _ hw hrest
      obtain ⟨hsound, hlt⟩ := hstep.sound hc
      obtain ⟨c', hrun, hdone⟩ := ih c₁.weight (hn ▸ hlt) hsound rfl
      exact ⟨c', .head hstep hrun, hdone⟩
    · push Not at hrest
      exact ⟨c, .refl, hrest⟩

theorem exists_yields (h : ∀ x ∈ c.files, x.2.weight = 0) : ∃ r, c.Yields r := by
  obtain ⟨σ, progress⟩ := c
  suffices ∃ found : List (String × FileFinding),
      progress = found.map (fun x ↦ (x.1, .done (.ok x.2))) ∨
      ∃ path f after, progress =
        found.map (fun x ↦ (x.1, .done (.ok x.2))) ++ (path, .done (.error f)) :: after by
    obtain ⟨found, rfl | ⟨path, f, after, rfl⟩⟩ := this
    · exact ⟨_, .found⟩
    · exact ⟨_, .failed⟩
  induction progress with
  | nil => exact ⟨[], .inl rfl⟩
  | cons x progress ih =>
    obtain ⟨path, q⟩ := x
    obtain ⟨hx, hrest⟩ := List.forall_mem_cons.1 h
    cases q with
    | waiting => cases hx
    | parsing => cases hx
    | done r =>
      cases r with
      | error f => exact ⟨[], .inr ⟨path, f, progress, rfl⟩⟩
      | ok one =>
        obtain ⟨found, rfl | ⟨path', f, after, rfl⟩⟩ := ih hrest
        · exact ⟨(path, one) :: found, .inl rfl⟩
        · exact ⟨(path, one) :: found, .inr ⟨path', f, after, rfl⟩⟩

theorem findings_append (found : List (String × FileFinding)) (rest : List String)
    (h : ∀ x ∈ found, Except.ok x.2 = w.finding cached s root x.1) :
    w.findings cached s root (found.map (·.1) ++ rest) =
      (w.findings cached s root rest).map (found ++ ·) := by
  induction found with
  | nil => cases h : w.findings cached s root rest <;> simp [h, Except.map]
  | cons x found ih =>
    obtain ⟨hx, hrest⟩ := List.forall_mem_cons.1 h
    have hih := ih hrest
    rw [List.map_cons, List.cons_append, findings_cons_of_ok hx.symm, hih]
    cases w.findings cached s root rest <;> rfl

theorem Sound.yields_eq (hc : c.Sound w cached s root files)
    {r : Except Failure (List (String × FileFinding))} (hy : c.Yields r) :
    r = w.findings cached s root files := by
  rw [← hc.names]
  cases hy with
  | @found _ found =>
    have hfound : ∀ x ∈ found, Except.ok x.2 = w.finding cached s root x.1 :=
      fun x hx ↦ hc.progress _ (List.mem_map_of_mem hx)
    have hall := findings_append found [] hfound
    have hnames : (found.map fun x ↦ (x.1, Progress.done (.ok x.2))).map (·.1) =
        found.map (·.1) ++ [] := by
      simp
    rw [hnames, hall]
    simp [Workspace.findings, Except.map, pure, Except.pure]
  | @failed _ found path f after =>
    have hfound : ∀ x ∈ found, Except.ok x.2 = w.finding cached s root x.1 :=
      fun x hx ↦ hc.progress _ (List.mem_append_left _ (List.mem_map_of_mem hx))
    have hfailed : Except.error f = w.finding cached s root path :=
      hc.progress (path, _) (List.mem_append_right _ List.mem_cons_self)
    have hall := findings_append found (path :: after.map (·.1)) hfound
    have hnames : (found.map (fun x ↦ (x.1, Progress.done (.ok x.2))) ++
        (path, .done (.error f)) :: after).map (·.1) =
          found.map (·.1) ++ path :: after.map (·.1) := by
      simp
    rw [hnames, hall]
    simp [Workspace.findings, List.mapM_cons, ← hfailed, Except.map, bind, Except.bind]

end Crew

/-- With any number of workers a search gives what one worker finds in the files in turn. -/
theorem searches_iff (h : w.Trusts σ.cache) {r : Except Failure Finding} :
    Searches w s root workers σ r ↔ r = w.found σ.cache.enabled s root := by
  constructor
  · intro hs
    cases hs with
    | inTurn => exact searchTests_trusted h s root
    | together hw hl hf hrun hy =>
      rw [((Crew.sound_start h _).run hrun).yields_eq hy, found_eq_map hl]
  · rintro rfl
    by_cases hone : workers ≤ 1 ∨ ∀ files, w.files.listFiles s.selection s.directory = .ok files →
        files.length ≤ 1
    · rw [← searchTests_trusted h]
      exact .inTurn hone
    · push Not at hone
      obtain ⟨hw, files, hl, hf⟩ := hone
      obtain ⟨c, hrun, hdone⟩ := @Crew.exists_finished w s root _ _ _ _ (by omega : 0 < workers)
        (Crew.sound_start h files)
      obtain ⟨r, hy⟩ := Crew.exists_yields hdone
      have heq := ((Crew.sound_start h files).run hrun).yields_eq hy
      rw [found_eq_map hl, ← heq]
      exact .together hw hl hf hrun hy

end CommandCoverage
