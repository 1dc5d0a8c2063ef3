import CommandCoverage.Assessment.Basic
import CommandCoverage.Proofs.Discovery.Failing
import CommandCoverage.Proofs.Invocation.Searching

namespace CommandCoverage

open Script Analysis CacheKey

def Workspace.Unkeyed (w : Workspace) (path : String) : Prop :=
  (∃ source, w.files.read w.maxFileSize path = .ok source) ∧
    ∃ f, w.keyFailure? true path = some f

inductive Workspace.SearchesUnkeyed (w : Workspace) (s : Search) (root : Command) :
    List String → Prop
  | here {path : String} {files : List String} (h : w.Unkeyed path) :
      w.SearchesUnkeyed s root (path :: files)
  | later {path : String} {files : List String} {one : FileFinding}
      (h : w.finding false s root path = .ok one) (hrest : w.SearchesUnkeyed s root files) :
      w.SearchesUnkeyed s root (path :: files)

def FailsToEncode {α : Type} (r : Except Failure α) : Prop :=
  ∃ message, r = .error (.unexpected "UnicodeEncodeError" message)

/-- A run with a cache beside one without. If it comes to a path without a key it ends there, and
otherwise nothing tells the two apart. -/
structure ComparesAt {α : Type} (sources : Set Pair) (cached : Bool) (p : Prop)
    (x : Analysis (Except Failure α)) (σ τ : Session) : Prop where
  agrees : (cached = true → ¬p) →
    (x.run σ).1 = (x.run τ).1 ∧ Alike sources cached (x.run σ).2 (x.run τ).2
  stumbles : cached = true → p → FailsToEncode (x.run σ).1 ∧
    (x.run σ).2.cache.Keeps (IsTree sources) ∧ (x.run σ).2.cache.enabled = true
  encodes : ¬FailsToEncode (x.run τ).1

def Compares {α : Type} (sources : Set Pair) (P : Session → Prop)
    (x : Analysis (Except Failure α)) : Prop :=
  ∀ cached σ τ, Alike sources cached σ τ → ComparesAt sources cached (P τ) x σ τ

variable {sources : Set Pair} {cached : Bool} {w : Workspace} {σ τ : Session} {α β : Type}
  {P P' : Session → Prop} {path entry : String} {files : List String} {s : Search}
  {root : Command} {source : SourceText}

theorem Alike.self (h : Alike sources cached σ τ) : Alike sources false τ τ :=
  ⟨rfl, rfl, rfl, nofun, h.disabled, h.disabled⟩

namespace Compares

variable {x : Analysis (Except Failure α)} {g : Except Failure α → Analysis (Except Failure β)}
  {Q : α → Session → Prop}

theorem congr (hx : Compares sources P x)
    (hp : ∀ τ, τ.cache.enabled = false → (P τ ↔ P' τ)) : Compares sources P' x := by
  intro cached σ τ h
  obtain ⟨hagrees, hstumbles, hencodes⟩ := hx cached σ τ h
  have hiff := hp τ h.disabled
  exact ⟨fun hn ↦ hagrees fun hc ↦ mt hiff.1 (hn hc), fun hc hp' ↦ hstumbles hc (hiff.2 hp'),
    hencodes⟩

theorem of_oblivious (hx : ∀ cached, Oblivious sources cached x)
    (he : ∀ τ, τ.cache.enabled = false → ¬FailsToEncode (x.run τ).1) :
    Compares sources (fun _ ↦ False) x :=
  fun cached σ τ h ↦ ⟨fun _ ↦ hx cached σ τ h, fun _ hf ↦ hf.elim, he τ h.disabled⟩

theorem bind (hx : Compares sources P x) (herror : ∀ e, g (.error e) = pure (.error e))
    (hok : ∀ a, Compares sources (Q a) (g (.ok a))) :
    Compares sources (fun τ ↦ P τ ∨ ∃ a, (x.run τ).1 = .ok a ∧ Q a (x.run τ).2) (x >>= g) := by
  intro cached σ τ h
  have hfails {υ : Session} {e : Failure} (he : (x.run υ).1 = .error e) :
      (x >>= g).run υ = (.error e, (x.run υ).2) := by
    rw [run_bind, he, herror]
    rfl
  have hgoes {υ : Session} {a : α} (ha : (x.run υ).1 = .ok a) :
      (x >>= g).run υ = (g (.ok a)).run (x.run υ).2 := by
    rw [run_bind, ha]
  have hfirst := hx cached σ τ h
  refine ⟨fun hn ↦ ?_, fun hc hp ↦ ?_, ?_⟩
  · obtain ⟨hvalue, halike⟩ := hfirst.agrees fun hc hp ↦ hn hc (.inl hp)
    cases hr : (x.run τ).1 with
    | error e =>
      rw [hfails hr, hfails (hvalue.trans hr)]
      exact ⟨rfl, halike⟩
    | ok a =>
      rw [hgoes hr, hgoes (hvalue.trans hr)]
      exact (hok a cached _ _ halike).agrees fun hc hq ↦ hn hc (.inr ⟨a, hr, hq⟩)
  · by_cases hpx : P τ
    · obtain ⟨⟨message, he⟩, hkept⟩ := hfirst.stumbles hc hpx
      rw [hfails he]
      exact ⟨⟨message, rfl⟩, hkept⟩
    · obtain ⟨a, hr, hq⟩ := hp.resolve_left hpx
      obtain ⟨hvalue, halike⟩ := hfirst.agrees fun _ ↦ hpx
      rw [hgoes (hvalue.trans hr)]
      exact (hok a cached _ _ halike).stumbles hc hq
  · -- Without the cache the run beside itself shows that it goes on without one.
    obtain ⟨-, hself⟩ := (hx false τ τ h.self).agrees nofun
    cases hr : (x.run τ).1 with
    | error e =>
      rw [hfails hr]
      rintro ⟨message, he⟩
      exact hfirst.encodes ⟨message, hr.trans (congrArg _ (Except.error.inj he))⟩
    | ok a =>
      rw [hgoes hr]
      exact (hok a false _ _ hself).encodes

theorem map (hx : Compares sources P x) (f : α → β) :
    Compares sources P (do return (← x).map f) := by
  have hmap := hx.bind (g := fun r ↦ pure (r.map f)) (Q := fun _ _ ↦ False) (fun _ ↦ rfl)
    fun a ↦ .of_oblivious (fun _ ↦ .pure _) fun τ _ ↦ by rintro ⟨message, h⟩; cases h
  exact hmap.congr fun τ _ ↦ by simp

end Compares

section discovering

theorem oblivious_notify (stage : Stage) (x : Warning) :
    Oblivious sources cached (notify stage x) :=
  fun _ _ h ↦ ⟨rfl, h.modules, h.warnings, congrArg (· ++ [(stage, x)]) h.notices, h.keeps,
    h.enabled, h.disabled⟩

theorem oblivious_handedToRunner (hw : w.Apart sources) (m : Module) :
    Oblivious sources cached (handedToRunner w m) :=
  .firstSome (fun _ ↦ (oblivious_resolve hw _ _ _).bind fun r ↦ .pure r.toOption) _

theorem oblivious_registeredBy (hw : w.Apart sources) (m : Module) (d : Node) :
    Oblivious sources cached (registeredBy w m d) := by
  unfold registeredBy
  split
  · exact .pure []
  · refine .foldlM (fun places s ↦ (oblivious_resolve hw _ _ _).bind fun r ↦ ?_) _ _
    cases r with
    | ok l => exact .pure _
    | error why => exact .pure _

theorem oblivious_fallbackRoot (hw : w.Apart sources) (m : Module) :
    Oblivious sources cached (fallbackRoot w m) :=
  (Oblivious.mapM (oblivious_registeredBy hw m) _).bind fun _ ↦ .pure _

theorem oblivious_findRoot (hw : w.Apart sources) (m : Module) :
    Oblivious sources cached (findRoot w m) := by
  refine (oblivious_handedToRunner hw m).bind fun handed ↦ ?_
  cases handed with
  | some l => exact .pure (some l)
  | none =>
    dsimp only
    split
    · refine (oblivious_resolveExport hw _ _).bind fun r ↦ ?_
      cases r with
      | ok l => exact .pure (some l)
      | error why => exact oblivious_fallbackRoot hw m
    · exact oblivious_fallbackRoot hw m

theorem keyFailure?_of_not_unkeyed (hk : cached = true → ¬w.Unkeyed path)
    (hr : w.files.read w.maxFileSize path = .ok source) : w.keyFailure? cached path = none := by
  cases cached with
  | false => rfl
  | true =>
    cases hf : w.keyFailure? true path with
    | none => rfl
    | some f => exact absurd ⟨⟨source, hr⟩, f, hf⟩ (hk rfl)

theorem Workspace.Unkeyed.not_lost (h : w.Unkeyed path) : ¬w.Lost path := by
  obtain ⟨⟨source, hr⟩, -⟩ := h
  obtain ⟨bytes, hget, -⟩ := read_eq_ok_iff.1 hr
  obtain ⟨p, q, hp, -⟩ := FileTree.exists_follow hget
  rintro ⟨hrelative, hhere⟩
  rw [FileTree.isAbsolute_plainPath, if_neg (by simp [hrelative])] at hp
  simp [hp] at hhere

theorem oblivious_loadEntry (hw : w.Apart sources) (hk : cached = true → ¬w.Unkeyed entry) :
    Oblivious sources cached (loadEntry w entry) := by
  intro σ τ h
  by_cases hl : w.Lost entry
  · rw [loadEntry_run_of_lost hl, loadEntry_run_of_lost hl]
    exact ⟨rfl, h⟩
  · have hσ := loadEntry_run (σ := σ) hl fun source hr ↦
      h.enabled ▸ keyFailure?_of_not_unkeyed hk hr
    have hτ := loadEntry_run (σ := τ) hl fun source hr ↦ h.disabled ▸ rfl
    rw [hσ, hτ]
    exact oblivious_load hw entry σ τ h

theorem loadEntry_run_of_unkeyed (h : w.Unkeyed entry) (he : σ.cache.enabled = true) :
    FailsToEncode ((loadEntry w entry).run σ).1 ∧ ((loadEntry w entry).run σ).2 = σ := by
  obtain ⟨⟨source, hr⟩, f, hf⟩ := id h
  obtain ⟨message, rfl⟩ := w.eq_unexpected_of_keyFailure? hf
  rw [loadEntry_run_of_not_lost h.not_lost, hr, he, hf]
  exact ⟨⟨message, rfl⟩, rfl⟩

theorem SystemFault.kind_ne (e : SystemFault) : e.kind ≠ "UnicodeEncodeError" := by
  unfold SystemFault.kind
  split
  · decide
  · split
    · decide
    · split <;> decide

theorem SystemFault.not_failsToEncode (e : SystemFault) (path : String) :
    ¬FailsToEncode (.error (e.failure path) : Except Failure α) := by
  rintro ⟨message, h⟩
  exact e.kind_ne (Failure.unexpected.inj (Except.error.inj h)).1

theorem not_failsToEncode_of_read {f : Failure}
    (hr : w.files.read w.maxFileSize path = .error f) :
    ¬FailsToEncode (.error f : Except Failure α) := by
  rcases read_eq_error hr with ⟨reason, suggestions, rfl⟩ | ⟨e, -, rfl⟩
  · rintro ⟨message, h⟩
    cases h
  · exact e.not_failsToEncode _

theorem loadEntry_encodes (h : τ.cache.enabled = false) :
    ¬FailsToEncode ((loadEntry w entry).run τ).1 := by
  by_cases hl : w.Lost entry
  · rw [loadEntry_run_of_lost hl]
    rintro ⟨message, he⟩
    exact absurd (Failure.unexpected.inj (Except.error.inj he)).1 (by decide)
  · rw [loadEntry_run hl fun source hr ↦ h ▸ rfl]
    have hloads := loads_load w entry τ
    generalize ((load w entry).run τ).1 = r at hloads ⊢
    generalize ((load w entry).run τ).2 = υ at hloads
    cases hloads with
    | unreadable _ hr => exact not_failsToEncode_of_read hr
    | known | cached | parsed | faulty =>
      rintro ⟨message, he⟩
      cases he

theorem compares_loadEntry (hw : w.Apart sources) :
    Compares sources (fun _ ↦ w.Unkeyed entry) (loadEntry w entry) := by
  refine fun cached σ τ h ↦ ⟨fun hk ↦ oblivious_loadEntry hw hk σ τ h, fun hc hu ↦ ?_,
    loadEntry_encodes h.disabled⟩
  obtain ⟨hfails, hsame⟩ := loadEntry_run_of_unkeyed hu (h.enabled.trans hc)
  rw [hsame]
  exact ⟨hfails, h.keeps hc, h.enabled.trans hc⟩

def Session.begun (σ : Session) : Session := { σ with modules := {}, warnings := [] }

theorem Alike.begun (h : Alike sources cached σ τ) : Alike sources cached σ.begun τ.begun :=
  ⟨rfl, rfl, h.notices, h.keeps, h.enabled, h.disabled⟩

theorem Compares.begin {x : Analysis (Except Failure α)} (hx : Compares sources P x) :
    Compares sources (fun τ ↦ P τ.begun)
      (modify (fun s ↦ { s with modules := {}, warnings := [] }) >>= fun _ ↦ x) := by
  intro cached σ τ h
  obtain ⟨hagrees, hstumbles, hencodes⟩ := hx cached σ.begun τ.begun h.begun
  exact ⟨hagrees, hstumbles, hencodes⟩

/-- Only the entry file can have a path without a key: those of other modules come from texts. -/
theorem compares_discover (hw : w.Apart sources) (entry : String) :
    Compares sources (fun _ ↦ w.Unkeyed entry) (discover w entry) := by
  unfold discover
  refine Compares.begin (P := fun _ ↦ w.Unkeyed entry) ?_
  refine Compares.congr ((compares_loadEntry hw).bind (Q := fun _ _ ↦ False) ?_ fun m ↦ ?_)
    fun τ _ ↦ by simp
  · exact fun _ ↦ rfl
  refine .of_oblivious (fun cached ↦ (oblivious_findRoot hw m).bind fun root ↦ ?_) fun τ _ ↦ ?_
  · cases root with
    | none => exact .pure _
    | some root =>
      dsimp only
      split
      · exact .pure _
      · exact (oblivious_build hw _ _).bind fun c ↦ .pure _
  · dsimp only
    rw [run_bind]
    rintro ⟨message, he⟩
    cases hr : ((findRoot w m).run τ).1 with
    | none =>
      rw [hr] at he
      cases he
    | some root =>
      rw [hr] at he
      dsimp only at he
      split at he <;> cases he

end discovering

section searching

theorem oblivious_searchFile (hw : w.Apart sources) (hk : cached = true → ¬w.Unkeyed path)
    (s : Search) (root : Command) : Oblivious sources cached (searchFile w s root path) := by
  intro σ τ h
  rw [searchFile_eq]
  cases hr : w.files.read w.maxFileSize path with
  | error f => exact ⟨rfl, h⟩
  | ok source =>
    have hgiven {υ : Session} (hυ : w.keyFailure? υ.cache.enabled path = none) :
        (parseGiven w path source.content >>= s.conclude root path).run υ =
          (Analysis.parse w path source.content >>= s.conclude root path).run υ := by
      rw [run_bind, run_bind, parseGiven_run, hυ]
    dsimp only
    rw [hgiven (h.enabled ▸ keyFailure?_of_not_unkeyed hk hr), hgiven (h.disabled ▸ rfl)]
    refine (oblivious_parse hw hr).bind (fun r ↦ ?_) σ τ h
    unfold Search.conclude
    split
    · exact .pure _
    · split
      · exact .pure _
      · exact (oblivious_notify .tests _).bind fun _ ↦ .pure _
    · exact .pure _

theorem finding_encodes (s : Search) (root : Command) (path : String) :
    ¬FailsToEncode (w.finding false s root path) := by
  cases hr : w.files.read w.maxFileSize path with
  | error f =>
    rw [finding_of_error hr]
    exact not_failsToEncode_of_read hr
  | ok source =>
    rw [finding_of_keyed hr rfl, Search.finding]
    rintro ⟨message, he⟩
    split at he
    · cases he
    · cases hp : s.policy <;> rw [hp] at he <;> cases he

theorem searchFile_uncached (h : τ.cache.enabled = false) :
    ((searchFile w s root path).run τ).1 = w.finding false s root path :=
  h ▸ (searchFile_trusted (.inl h) s root path).1

theorem compares_searchFile (hw : w.Apart sources) (s : Search) (root : Command) (path : String) :
    Compares sources (fun _ ↦ w.Unkeyed path) (searchFile w s root path) := by
  refine fun cached σ τ h ↦ ⟨fun hk ↦ oblivious_searchFile hw hk s root σ τ h, fun hc hu ↦ ?_, ?_⟩
  · obtain ⟨⟨source, hr⟩, f, hf⟩ := hu
    obtain ⟨message, rfl⟩ := w.eq_unexpected_of_keyFailure? hf
    have hkeeps := h.keeps hc
    have hon := h.enabled.trans hc
    rw [searchFile_eq, hr]
    dsimp only
    rw [run_bind, parseGiven_run, hon, hf]
    exact ⟨⟨message, rfl⟩, hkeeps, hon⟩
  · rw [searchFile_uncached h.disabled]
    exact finding_encodes s root path

theorem searchesUnkeyed_cons_iff : w.SearchesUnkeyed s root (path :: files) ↔
    w.Unkeyed path ∨ ∃ one, w.finding false s root path = .ok one ∧
      w.SearchesUnkeyed s root files := by
  constructor
  · rintro (h | ⟨h, hrest⟩)
    · exact .inl h
    · exact .inr ⟨_, h, hrest⟩
  · rintro (h | ⟨one, h, hrest⟩)
    · exact .here h
    · exact .later h hrest

theorem compares_searchFiles (hw : w.Apart sources) (s : Search) (root : Command)
    (files : List String) :
    Compares sources (fun _ ↦ w.SearchesUnkeyed s root files) (searchFiles w s root files) := by
  induction files with
  | nil =>
    have hnil : Compares sources (fun _ ↦ False) (searchFiles w s root []) :=
      .of_oblivious (fun _ ↦ .pure _) fun τ _ ↦ by rintro ⟨message, h⟩; cases h
    exact hnil.congr fun τ _ ↦ ⟨False.elim, nofun⟩
  | cons path files ih =>
    rw [searchFiles]
    refine Compares.congr (Compares.bind (Q := fun _ _ ↦ w.SearchesUnkeyed s root files)
      (compares_searchFile hw s root path) (fun _ ↦ rfl) fun found ↦ ih.map _) ?_
    intro τ h
    rw [searchesUnkeyed_cons_iff, searchFile_uncached h]

def Workspace.StumblesIn (w : Workspace) (s : Search) (root : Command) : Prop :=
  ∃ files, w.files.listFiles s.selection s.directory = .ok files ∧ w.SearchesUnkeyed s root files

theorem listFiles_encodes {t : FileTree} {selection : FileTree.Selection} {f : Failure}
    (h : t.listFiles selection path = .error f) : ¬FailsToEncode (.error f : Except Failure α) := by
  unfold FileTree.listFiles at h
  split at h
  · split at h
    · rename_i e _
      obtain rfl := Except.error.inj h
      exact e.not_failsToEncode _
    · obtain rfl := Except.error.inj h
      rintro ⟨message, he⟩
      cases he
  · split at h
    · obtain rfl := Except.error.inj h
      rintro ⟨message, he⟩
      cases he
    · split at h
      · obtain rfl := Except.error.inj h
        rintro ⟨message, he⟩
        cases he
      · cases h

theorem compares_searchTests (hw : w.Apart sources) (s : Search) (root : Command) :
    Compares sources (fun _ ↦ w.StumblesIn s root) (searchTests w s root) := by
  unfold searchTests
  cases hl : w.files.listFiles s.selection s.directory with
  | error f =>
    have herror : Compares sources (fun _ ↦ False)
        (pure (.error f) : Analysis (Except Failure Finding)) :=
      .of_oblivious (fun _ ↦ .pure _) fun τ _ ↦ listFiles_encodes hl
    exact herror.congr fun τ _ ↦ by simp [Workspace.StumblesIn, hl]
  | ok files =>
    exact ((compares_searchFiles hw s root files).map _).congr fun τ _ ↦ by
      simp [Workspace.StumblesIn, hl]

end searching

end CommandCoverage
