import CommandCoverage.Invocation.Search
import CommandCoverage.Proofs.Cache.Trust

namespace CommandCoverage

open Script Analysis

def faultFailure (path : String) : Failure :=
  .undiscoverable path
    ("test file could not be parsed: " ++ "syntax error" ++ " at line " ++ Nat.repr 1) [path]

def faultWarning (path : String) : Warning :=
  ⟨"test_parse_error", "skipped unparseable test file (" ++ "syntax error" ++ ", line " ++
    Nat.repr 1 ++ ")", some path, some 1⟩

def FaultPolicy.finding (path : String) : FaultPolicy → Except Failure FileFinding
  | .stop => .error (faultFailure path)
  | .skip => .ok { warnings := [faultWarning path], skipped := true }

def Search.finding (s : Search) (root : Command) (path content : String) :
    Except Failure FileFinding :=
  match parseFile path content with
  | some tree => .ok (.ofTree root s.runners path tree)
  | none => s.policy.finding path

/-- What a search finds in a file, with a cache that is on or off. -/
def Workspace.finding (w : Workspace) (cached : Bool) (s : Search) (root : Command)
    (path : String) : Except Failure FileFinding := do
  let source ← w.files.read w.maxFileSize path
  match w.keyFailure? cached path with
  | some f => .error f
  | none => s.finding root path source.content

/-- What a search finds in some files, up to the first failure in their order. -/
def Workspace.findings (w : Workspace) (cached : Bool) (s : Search) (root : Command)
    (files : List String) : Except Failure (List (String × FileFinding)) :=
  files.mapM fun path ↦ (w.finding cached s root path).map (path, ·)

def Workspace.found (w : Workspace) (cached : Bool) (s : Search) (root : Command) :
    Except Failure Finding := do
  let files ← w.files.listFiles s.selection s.directory
  return .ofFiles (← w.findings cached s root files)

variable {w : Workspace} {s : Search} {root : Command} {path content : String} {σ : Session}
  {source : SourceText} {files : List String} {cached : Bool} {f : Failure}

theorem except_ok_bind {ε α β : Type} (a : α) (f : α → Except ε β) : (Except.ok a >>= f) = f a :=
  rfl

theorem except_map_eq_error_iff {ε α β : Type} {x : Except ε α} {f : α → β} {e : ε} :
    x.map f = .error e ↔ x = .error e := by
  cases x <;> simp [Except.map]

section halves

def Workspace.lookUp (w : Workspace) (path content : String) : Analysis (Option Node) := do
  let now ← readClock w
  let s ← get
  let (cached, cache) := s.cache.get now (w.cacheKey path content)
  set { s with cache }
  return cached

def Workspace.parseAnew (w : Workspace) (path content : String) :
    Analysis (Except Failure Node) :=
  match parsed path content with
  | .error f => return .error f
  | .ok tree => do
    let now ← readClock w
    modify fun s ↦ { s with cache := s.cache.set now (w.cacheKey path content) tree }
    return .ok tree

def Search.conclude (s : Search) (root : Command) (path : String) :
    Except Failure Node → Analysis (Except Failure FileFinding)
  | .ok tree => return .ok (.ofTree root s.runners path tree)
  | .error (.unparseable _ line _ _ detail) =>
    match s.policy with
    | .stop =>
      return .error (.undiscoverable path
        ("test file could not be parsed: " ++ detail ++ " at line " ++ Nat.repr line) [path])
    | .skip => do
      let warning : Warning :=
        ⟨"test_parse_error",
          "skipped unparseable test file (" ++ detail ++ ", line " ++ Nat.repr line ++ ")",
          some path, some line⟩
      notify .tests warning
      return .ok { warnings := [warning], skipped := true }
  | .error f => return .error f

/-- The two steps that a worker takes for a source, with others in between, are together what
parsing it does. -/
theorem parse_eq_halves (w : Workspace) (path content : String) (σ : Session) :
    (Analysis.parse w path content).run σ =
      match (w.lookUp path content).run σ with
      | (some tree, τ) => (.ok tree, τ)
      | (none, τ) => (w.parseAnew path content).run τ := by
  have hlook : (w.lookUp path content).run σ =
      ((σ.cache.get (w.clock σ.readings) (w.cacheKey path content)).1,
        { σ with
          cache := (σ.cache.get (w.clock σ.readings) (w.cacheKey path content)).2
          readings := σ.readings + 1 }) := rfl
  rw [parse_run, hlook]
  rcases σ.cache.get (w.clock σ.readings) (w.cacheKey path content) with ⟨_ | tree, cache⟩
  · unfold Workspace.parseAnew parsed
    cases parseFile path content <;> rfl
  · rfl

theorem searchFile_eq (w : Workspace) (s : Search) (root : Command) (path : String) :
    searchFile w s root path =
      match w.files.read w.maxFileSize path with
      | .error f => return .error f
      | .ok source => parseGiven w path source.content >>= s.conclude root path := by
  unfold searchFile
  cases w.files.read w.maxFileSize path with
  | error f => rfl
  | ok source =>
    refine bind_congr fun r ↦ ?_
    unfold Search.conclude
    cases r with
    | ok tree => rfl
    | error f =>
      cases f with
      | unparseable path line column lineText detail => cases s.policy <;> rfl
      | plain | unreadable | shapeless | undiscoverable | unexpected => rfl

theorem parseGiven_run (w : Workspace) (path content : String) (σ : Session) :
    (parseGiven w path content).run σ =
      match w.keyFailure? σ.cache.enabled path with
      | some f => (.error f, σ)
      | none => (Analysis.parse w path content).run σ := by
  unfold parseGiven
  simp only [StateT.run_bind, StateT.run_get, pure_bind]
  cases w.keyFailure? σ.cache.enabled path <;> rfl

theorem lookUp_trusted (h : w.Trusts σ.cache) (hr : w.files.read w.maxFileSize path = .ok source) :
    w.Trusts ((w.lookUp path source.content).run σ).2.cache ∧
      ∀ tree, ((w.lookUp path source.content).run σ).1 = some tree →
        parsed path source.content = .ok tree := by
  refine ⟨h.get _ _, fun tree ht ↦ ?_⟩
  have hp : parseFile path source.content = some tree := h.trustsAt path source hr _ tree ht
  rw [parsed, hp]

theorem parseAnew_trusted (h : w.Trusts σ.cache)
    (hr : w.files.read w.maxFileSize path = .ok source) :
    w.Trusts ((w.parseAnew path source.content).run σ).2.cache ∧
      ((w.parseAnew path source.content).run σ).1 = parsed path source.content := by
  unfold Workspace.parseAnew parsed
  cases hp : parseFile path source.content with
  | none => exact ⟨h, rfl⟩
  | some tree => exact ⟨h.set hr hp _, rfl⟩

theorem enabled_lookUp (w : Workspace) (path content : String) (σ : Session) :
    ((w.lookUp path content).run σ).2.cache.enabled = σ.cache.enabled :=
  ParseCache.enabled_get

theorem enabled_parseAnew (w : Workspace) (path content : String) (σ : Session) :
    ((w.parseAnew path content).run σ).2.cache.enabled = σ.cache.enabled := by
  unfold Workspace.parseAnew parsed
  cases parseFile path content with
  | none => rfl
  | some tree => exact ParseCache.enabled_set

theorem conclude_parsed (s : Search) (root : Command) (path content : String) (σ : Session) :
    ((s.conclude root path (parsed path content)).run σ).1 = s.finding root path content ∧
      ((s.conclude root path (parsed path content)).run σ).2.cache = σ.cache := by
  unfold Search.finding parsed
  cases parseFile path content with
  | some tree => exact ⟨rfl, rfl⟩
  | none =>
    dsimp only [Search.conclude]
    cases s.policy with
    | stop => exact ⟨rfl, rfl⟩
    | skip => exact ⟨rfl, rfl⟩

end halves

theorem finding_of_keyed (hr : w.files.read w.maxFileSize path = .ok source)
    (hk : w.keyFailure? cached path = none) :
    w.finding cached s root path = s.finding root path source.content := by
  rw [Workspace.finding, hr, except_ok_bind, hk]

theorem finding_of_unkeyed (hr : w.files.read w.maxFileSize path = .ok source)
    (hk : w.keyFailure? cached path = some f) : w.finding cached s root path = .error f := by
  rw [Workspace.finding, hr, except_ok_bind, hk]

theorem finding_of_error (hr : w.files.read w.maxFileSize path = .error f) :
    w.finding cached s root path = .error f := by
  rw [Workspace.finding, hr]
  rfl

theorem findings_cons_of_error (h : w.finding cached s root path = .error f) :
    w.findings cached s root (path :: files) = .error f := by
  unfold Workspace.findings
  rw [List.mapM_cons, h]
  rfl

theorem findings_cons_of_ok {one : FileFinding} (h : w.finding cached s root path = .ok one) :
    w.findings cached s root (path :: files) =
      (w.findings cached s root files).map ((path, one) :: ·) := by
  unfold Workspace.findings
  rw [List.mapM_cons, h]
  cases files.mapM fun path ↦ (w.finding cached s root path).map (path, ·) <;> rfl

theorem found_eq_map (hlist : w.files.listFiles s.selection s.directory = .ok files) :
    w.found cached s root = (w.findings cached s root files).map .ofFiles := by
  rw [Workspace.found, hlist, except_ok_bind]
  cases w.findings cached s root files <;> rfl

theorem searchFile_trusted (h : w.Trusts σ.cache) (s : Search) (root : Command) (path : String) :
    ((searchFile w s root path).run σ).1 = w.finding σ.cache.enabled s root path ∧
      w.Trusts ((searchFile w s root path).run σ).2.cache ∧
      ((searchFile w s root path).run σ).2.cache.enabled = σ.cache.enabled := by
  rw [searchFile_eq]
  cases hr : w.files.read w.maxFileSize path with
  | error f => exact ⟨(finding_of_error hr).symm, h, rfl⟩
  | ok source =>
    dsimp only
    rw [run_bind, parseGiven_run]
    cases hk : w.keyFailure? σ.cache.enabled path with
    | some f =>
      obtain ⟨message, rfl⟩ := w.eq_unexpected_of_keyFailure? hk
      exact ⟨(finding_of_unkeyed hr hk).symm, h, rfl⟩
    | none =>
      have hparse := parse_eq (h.trustsAt path) hr
      have hkept := trusts_parse h hr
      dsimp only
      rw [hparse, finding_of_keyed hr hk]
      obtain ⟨hresult, hcache⟩ := conclude_parsed s root path source.content
        ((Analysis.parse w path source.content).run σ).2
      exact ⟨hresult, hcache ▸ hkept, (congrArg _ hcache).trans (enabled_parse ..)⟩

theorem searchFiles_trusted (h : w.Trusts σ.cache) (s : Search) (root : Command)
    (files : List String) :
    ((searchFiles w s root files).run σ).1 = w.findings σ.cache.enabled s root files := by
  induction files generalizing σ with
  | nil => rfl
  | cons path files ih =>
    obtain ⟨hresult, hkept, henabled⟩ := searchFile_trusted h s root path
    rw [searchFiles, run_bind, hresult, Workspace.findings, List.mapM_cons]
    cases w.finding σ.cache.enabled s root path with
    | error f => rfl
    | ok found =>
      dsimp only
      rw [run_bind, ih hkept, henabled, Workspace.findings]
      rfl

theorem searchTests_trusted (h : w.Trusts σ.cache) (s : Search) (root : Command) :
    ((searchTests w s root).run σ).1 = w.found σ.cache.enabled s root := by
  unfold searchTests Workspace.found
  cases w.files.listFiles s.selection s.directory with
  | error f => rfl
  | ok files =>
    dsimp only
    rw [run_bind, searchFiles_trusted h, except_ok_bind]
    cases w.findings σ.cache.enabled s root files with
    | error f => rfl
    | ok found => rfl

end CommandCoverage
