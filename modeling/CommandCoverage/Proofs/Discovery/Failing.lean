import CommandCoverage.Proofs.Cache.Trust
import CommandCoverage.Proofs.Discovery.Choice
import CommandCoverage.Proofs.Text.Surrogate

namespace CommandCoverage

open Script Analysis

variable {w : Workspace} {entry : String} {σ τ υ φ : Session} {m : Module} {l : Located}
  {c : Command} {f : Failure} {source : SourceText} {r : Except Failure Command}
  {root : Option Located}

def Located.Named (l : Located) : Prop :=
  ∃ name, l.owner.memberText l.object "meta" "name" = some name ∧ name ≠ ""

/-- A path that would have to be looked up from a working directory that is gone. -/
def Workspace.Lost (w : Workspace) (path : String) : Prop :=
  Path.isAbsolute path = false ∧ w.files.here.isNone = true

def lostFailure : Failure :=
  .unexpected "FileNotFoundError" "[Errno 2] No such file or directory"

structure Enters (w : Workspace) (entry : String) (σ : Session) (m : Module) (τ : Session) :
    Prop where
  placed : ¬w.Lost entry
  keyed : w.keyFailure? σ.cache.enabled entry = none
  parses : ∃ source tree, w.files.read w.maxFileSize entry = .ok source ∧
    parseFile entry source.content = some tree ∧ m = .ofRoot entry tree
  loads : Loads w entry { σ with modules := {}, warnings := [] } (.ok m) τ

def rootless (entry : String) : Failure :=
  .shapeless entry "Could not identify the main command"
    (some ("No defineCommand(\x7b meta: \x7b name \x7d \x7d) call with args/subCommands/run " ++
      "was found"))

def nameless (entry : String) (l : Located) : Failure :=
  .shapeless entry "Main command has no static meta.name"
    (some ("The definition at " ++ l.owner.path ++ ":" ++ Nat.repr l.object.line ++
      " sets meta.name to a value that is not a string literal"))

inductive Discovers (w : Workspace) (entry : String) (σ : Session) : Except Failure Command → Prop
  | lost (hl : w.Lost entry) : Discovers w entry σ (.error lostFailure)
  | unreadable {f : Failure} (hl : ¬w.Lost entry)
      (hr : w.files.read w.maxFileSize entry = .error f) : Discovers w entry σ (.error f)
  | unkeyed {source : SourceText} {f : Failure} (hl : ¬w.Lost entry)
      (hr : w.files.read w.maxFileSize entry = .ok source)
      (hk : w.keyFailure? σ.cache.enabled entry = some f) : Discovers w entry σ (.error f)
  | unparseable {source : SourceText} (hl : ¬w.Lost entry)
      (hr : w.files.read w.maxFileSize entry = .ok source)
      (hk : w.keyFailure? σ.cache.enabled entry = none)
      (hp : parseFile entry source.content = none) :
      Discovers w entry σ (.error (.unparseable entry 1 1 "" "syntax error"))
  | rootless {m : Module} {τ υ : Session} (he : Enters w entry σ m τ) (hc : Chooses w m τ none υ) :
      Discovers w entry σ (.error (rootless entry))
  | nameless {m : Module} {l : Located} {τ υ : Session} (he : Enters w entry σ m τ)
      (hc : Chooses w m τ (some l) υ) (hn : ¬l.Named) :
      Discovers w entry σ (.error (nameless entry l))
  | tree {m : Module} {l : Located} {c : Command} {τ υ φ : Session} (he : Enters w entry σ m τ)
      (hc : Chooses w m τ (some l) υ) (hn : l.Named)
      (hb : Builds w [] (.task (.definition "" l)) υ c φ) :
      Discovers w entry σ (.ok (fromElsewhere l m c))

theorem named_iff :
    l.Named ↔ ((l.owner.memberText l.object "meta" "name").getD "").isEmpty = false := by
  unfold Located.Named
  cases l.owner.memberText l.object "meta" "name" <;> simp

section entering

theorem loadEntry_run_of_lost (h : w.Lost entry) :
    (loadEntry w entry).run σ = (.error lostFailure, σ) := by
  simp [loadEntry, h.1, h.2]
  rfl

theorem loadEntry_run_of_not_lost (h : ¬w.Lost entry) :
    (loadEntry w entry).run σ =
      match w.files.read w.maxFileSize entry, w.keyFailure? σ.cache.enabled entry with
      | .ok _, some f => (.error f, σ)
      | _, _ => (load w entry).run σ := by
  have hplaced : (!Path.isAbsolute entry && w.files.here.isNone) = false := by
    rw [Bool.and_eq_false_iff, Bool.not_eq_false', Bool.eq_false_iff]
    rw [Workspace.Lost, ← Bool.not_eq_true] at h
    tauto
  have hrun : (loadEntry w entry).run σ =
      (match w.files.read w.maxFileSize entry, w.keyFailure? σ.cache.enabled entry with
        | .ok _, some f => pure (.error f)
        | _, _ => load w entry : Analysis (Except Failure Module)).run σ := by
    simp only [loadEntry, hplaced]
    rfl
  rw [hrun]
  split <;> rfl

theorem loadEntry_run (hl : ¬w.Lost entry)
    (hk : ∀ source, w.files.read w.maxFileSize entry = .ok source →
      w.keyFailure? σ.cache.enabled entry = none) :
    (loadEntry w entry).run σ = (load w entry).run σ := by
  rw [loadEntry_run_of_not_lost hl]
  split
  · rename_i hr hf
    rw [hk _ hr] at hf
    cases hf
  · rfl

end entering

theorem begin_run :
    (modify fun s ↦ { s with modules := {}, warnings := [] } : Analysis PUnit).run σ =
      (⟨⟩, { σ with modules := {}, warnings := [] }) :=
  rfl

theorem discover_run_of_error
    (h : ((loadEntry w entry).run { σ with modules := {}, warnings := [] }).1 = .error f) :
    ((discover w entry).run σ).1 = .error f := by
  rw [discover, run_bind, begin_run, run_bind]
  dsimp only
  rw [h]
  rfl

theorem Chooses.run (h : Chooses w m τ root υ) : (findRoot w m).run τ = (root, υ) := by
  obtain ⟨root', υ', h', hrun⟩ := exists_chooses w m τ
  obtain ⟨rfl, rfl⟩ := h.unique h'
  exact hrun

namespace Enters

theorem loadEntry_run (he : Enters w entry σ m τ) :
    (loadEntry w entry).run { σ with modules := {}, warnings := [] } = (.ok m, τ) := by
  have hentry := CommandCoverage.loadEntry_run (σ := { σ with modules := {}, warnings := [] })
    he.placed fun _ _ ↦ he.keyed
  rw [hentry, he.loads.run]

theorem discover_run (he : Enters w entry σ m τ) (hc : Chooses w m τ root υ) :
    ((discover w entry).run σ).1 =
      match root with
      | none => .error (rootless entry)
      | some l =>
        if ((l.owner.memberText l.object "meta" "name").getD "").isEmpty then
          .error (nameless entry l)
        else
          .ok (fromElsewhere l m ((Unbounded.build w [] (.definition "" l)).outcome υ).1) := by
  rw [discover, run_bind, begin_run, run_bind, he.loadEntry_run]
  dsimp only
  rw [run_bind, hc.run]
  cases root with
  | none => rfl
  | some l =>
    dsimp only
    split <;> rfl

theorem discover_rootless (he : Enters w entry σ m τ) (hc : Chooses w m τ none υ) :
    ((discover w entry).run σ).1 = .error (rootless entry) := by
  rw [he.discover_run hc]

theorem discover_nameless (he : Enters w entry σ m τ) (hc : Chooses w m τ (some l) υ)
    (hn : ¬l.Named) : ((discover w entry).run σ).1 = .error (nameless entry l) := by
  rw [named_iff, Bool.not_eq_false] at hn
  rw [he.discover_run hc]
  simp only [hn, if_true]

theorem discover_tree (he : Enters w entry σ m τ) (hc : Chooses w m τ (some l) υ) (hn : l.Named)
    (hb : Builds w [] (.task (.definition "" l)) υ c φ) :
    ((discover w entry).run σ).1 = .ok (fromElsewhere l m c) := by
  have heval : Unbounded.build w [] (.definition "" l) υ = some (c, φ) := hb.eval
  rw [he.discover_run hc]
  simp [named_iff.1 hn, Unbounded.outcome, heval]

end Enters

theorem exists_discovers (h : w.TrustsAt σ.cache entry) : ∃ r, Discovers w entry σ r := by
  by_cases hl : w.Lost entry
  · exact ⟨_, .lost hl⟩
  cases hr : w.files.read w.maxFileSize entry with
  | error f => exact ⟨_, .unreadable hl hr⟩
  | ok source =>
    cases hk : w.keyFailure? σ.cache.enabled entry with
    | some f => exact ⟨_, .unkeyed hl hr hk⟩
    | none =>
      cases hp : parseFile entry source.content with
      | none => exact ⟨_, .unparseable hl hr hk hp⟩
      | some tree =>
        have hfst := load_run_fst (σ := { σ with modules := {}, warnings := [] }) h hr rfl
        have hloads := loads_load w entry { σ with modules := {}, warnings := [] }
        rw [hfst, parsed, hp] at hloads
        have he : Enters w entry σ (.ofRoot entry tree) _ := ⟨hl, hk, ⟨_, _, hr, hp, rfl⟩, hloads⟩
        obtain ⟨root, υ, hc, -⟩ := exists_chooses w (.ofRoot entry tree) _
        cases root with
        | none => exact ⟨_, .rootless he hc⟩
        | some l =>
          by_cases hn : l.Named
          · obtain ⟨c, φ, hb⟩ := exists_builds w [] (.definition "" l) υ
            exact ⟨_, .tree he hc hn hb⟩
          · exact ⟨_, .nameless he hc hn⟩

theorem Discovers.eq (hd : Discovers w entry σ r) (h : w.TrustsAt σ.cache entry) :
    ((discover w entry).run σ).1 = r := by
  cases hd with
  | lost hl => exact discover_run_of_error (congrArg Prod.fst (loadEntry_run_of_lost hl))
  | unreadable hl hr =>
    have hload : Loads w entry { σ with modules := {}, warnings := [] } _ _ := .unreadable rfl hr
    have hentry := loadEntry_run (σ := { σ with modules := {}, warnings := [] }) hl
      fun source hr' ↦ by cases hr.symm.trans hr'
    exact discover_run_of_error (congrArg Prod.fst (hentry.trans hload.run))
  | unkeyed hl hr hk =>
    have hentry := loadEntry_run_of_not_lost (σ := { σ with modules := {}, warnings := [] }) hl
    simp only [hr, hk] at hentry
    exact discover_run_of_error (congrArg Prod.fst hentry)
  | unparseable hl hr hk hp =>
    have hentry := loadEntry_run (σ := { σ with modules := {}, warnings := [] }) hl fun _ _ ↦ hk
    have hfst := load_run_fst (σ := { σ with modules := {}, warnings := [] }) h hr rfl
    rw [parsed, hp] at hfst
    exact discover_run_of_error ((congrArg Prod.fst hentry).trans hfst)
  | rootless he hc => exact he.discover_rootless hc
  | nameless he hc hn => exact he.discover_nameless hc hn
  | tree he hc hn hb => exact he.discover_tree hc hn hb

structure FailsByEntry (w : Workspace) (entry : String) (σ : Session) (r : Except Failure Command) :
    Prop where
  kinds : ∀ f, r = .error f → (∃ reason suggestions, f = .unreadable entry reason suggestions) ∨
    f = .unparseable entry 1 1 "" "syntax error" ∨
    ∃ reason details, f = .shapeless entry reason details
  unreadable : (∃ path reason suggestions, r = .error (.unreadable path reason suggestions)) ↔
    ∃ f, w.files.read w.maxFileSize entry = .error f
  unparseable : (∃ path line column lineText detail,
      r = .error (.unparseable path line column lineText detail)) ↔
    ∃ source, w.files.read w.maxFileSize entry = .ok source ∧ parseFile entry source.content = none
  shapeless : (∃ path reason details, r = .error (.shapeless path reason details)) ↔
    ∃ m τ, Enters w entry σ m τ ∧ ((∃ υ, Chooses w m τ none υ) ∨
      ∃ l υ, Chooses w m τ (some l) υ ∧ ¬l.Named)
  tree : ∀ c, r = .ok c ↔ ∃ m τ l υ c' φ, Enters w entry σ m τ ∧ Chooses w m τ (some l) υ ∧ l.Named ∧
    Builds w [] (.task (.definition "" l)) υ c' φ ∧ c = fromElsewhere l m c'

structure Workspace.Admits (w : Workspace) (cached : Bool) (entry : String) : Prop where
  placed : ¬w.Lost entry
  seen : w.files.lookFault? (FileTree.plainPath entry) = none
  keyed : ∀ source, w.files.read w.maxFileSize entry = .ok source →
    w.keyFailure? cached entry = none

namespace Workspace

theorem read_eq_of_lookFault? {e : SystemFault}
    (h : w.files.lookFault? (FileTree.plainPath entry) = some e) :
    w.files.read w.maxFileSize entry = .error (e.failure (FileTree.plainPath entry)) := by
  rw [FileTree.read, readFault?_eq_unseen_iff.2 h]
  rfl

theorem lookFault?_of_read (hr : w.files.read w.maxFileSize entry = .ok source) :
    w.files.lookFault? (FileTree.plainPath entry) = none := by
  cases hlook : w.files.lookFault? (FileTree.plainPath entry) with
  | none => rfl
  | some e => cases hr.symm.trans (read_eq_of_lookFault? hlook)

theorem Admits.read_eq_error {cached : Bool} (ha : w.Admits cached entry)
    (hr : w.files.read w.maxFileSize entry = .error f) :
    ∃ reason suggestions, f = .unreadable entry reason suggestions := by
  rcases CommandCoverage.read_eq_error hr with hf | ⟨e, hlook, -⟩
  · exact hf
  · cases ha.seen.symm.trans hlook

end Workspace

theorem Enters.admits (he : Enters w entry σ m τ) : w.Admits σ.cache.enabled entry := by
  obtain ⟨source, tree, hr, -⟩ := he.parses
  exact ⟨he.placed, w.lookFault?_of_read hr, fun _ _ ↦ he.keyed⟩

/-- Discovery ends with an error that nothing handles if the system or the cache does not take the
path of the entry file, and only then. -/
theorem discover_unexpected_iff (h : w.TrustsAt σ.cache entry) :
    (∃ kind message, ((discover w entry).run σ).1 = .error (.unexpected kind message)) ↔
      ¬w.Admits σ.cache.enabled entry := by
  obtain ⟨r, hd⟩ := exists_discovers h
  rw [hd.eq h]
  cases hd with
  | lost hl => exact iff_of_true ⟨_, _, rfl⟩ fun ha ↦ ha.placed hl
  | unreadable hl hr =>
    cases hlook : w.files.lookFault? (FileTree.plainPath entry) with
    | none =>
      have ha : w.Admits σ.cache.enabled entry :=
        ⟨hl, hlook, fun source hr' ↦ by cases hr.symm.trans hr'⟩
      obtain ⟨reason, suggestions, rfl⟩ := ha.read_eq_error hr
      exact iff_of_false nofun (not_not_intro ha)
    | some e =>
      obtain rfl := Except.error.inj (hr.symm.trans (w.read_eq_of_lookFault? hlook))
      exact iff_of_true ⟨_, _, rfl⟩ fun ha ↦ by cases ha.seen.symm.trans hlook
  | unkeyed hl hr hk =>
    obtain ⟨message, rfl⟩ := w.eq_unexpected_of_keyFailure? hk
    exact iff_of_true ⟨_, _, rfl⟩ fun ha ↦ by cases (ha.keyed _ hr).symm.trans hk
  | unparseable hl hr hk =>
    exact iff_of_false nofun (not_not_intro ⟨hl, w.lookFault?_of_read hr, fun _ _ ↦ hk⟩)
  | rootless he | nameless he | tree he => exact iff_of_false nofun (not_not_intro he.admits)

theorem Enters.tree_iff (he : Enters w entry σ m τ) : ((discover w entry).run σ).1 = .ok c ↔
    ∃ l υ c' φ, Chooses w m τ (some l) υ ∧ l.Named ∧
      Builds w [] (.task (.definition "" l)) υ c' φ ∧ c = fromElsewhere l m c' := by
  constructor
  · intro hok
    obtain ⟨root, υ, hc, -⟩ := exists_chooses w m τ
    cases root with
    | none => cases (he.discover_rootless hc).symm.trans hok
    | some l =>
      by_cases hn : l.Named
      · obtain ⟨c', φ, hb⟩ := exists_builds w [] (.definition "" l) υ
        have hsame := hok.symm.trans (he.discover_tree hc hn hb)
        exact ⟨l, υ, c', φ, hc, hn, hb, Except.ok.inj hsame⟩
      · cases (he.discover_nameless hc hn).symm.trans hok
  · rintro ⟨l, υ, c', φ, hc, hn, hb, rfl⟩
    exact he.discover_tree hc hn hb

theorem Workspace.Admits.failsByEntry (ha : w.Admits σ.cache.enabled entry)
    (h : w.TrustsAt σ.cache entry) : FailsByEntry w entry σ ((discover w entry).run σ).1 := by
  obtain ⟨r, hd⟩ := exists_discovers h
  have hsame {r' : Except Failure Command} (hd' : Discovers w entry σ r') : r = r' :=
    (hd.eq h).symm.trans (hd'.eq h)
  rw [hd.eq h]
  constructor
  · rintro f rfl
    cases hd with
    | lost hl => exact absurd hl ha.placed
    | unreadable _ hr => exact .inl (ha.read_eq_error hr)
    | unkeyed _ hr hk => cases (ha.keyed _ hr).symm.trans hk
    | unparseable => exact .inr (.inl rfl)
    | rootless | nameless => exact .inr (.inr ⟨_, _, rfl⟩)
  · constructor
    · rintro ⟨path, reason, suggestions, rfl⟩
      generalize he : Failure.unreadable path reason suggestions = f at hd
      cases hd with
      | unreadable _ hr => exact ⟨_, hr⟩
      | unkeyed _ hr hk => cases (ha.keyed _ hr).symm.trans hk
      | lost | unparseable | rootless | nameless => cases he
    · rintro ⟨f, hr⟩
      obtain ⟨reason, suggestions, rfl⟩ := ha.read_eq_error hr
      exact ⟨_, _, _, hsame (.unreadable ha.placed hr)⟩
  · constructor
    · rintro ⟨path, line, column, lineText, detail, rfl⟩
      generalize he : Failure.unparseable path line column lineText detail = f at hd
      cases hd with
      | unparseable _ hr _ hp => exact ⟨_, hr, hp⟩
      | unreadable _ hr =>
        obtain ⟨reason, suggestions, rfl⟩ := ha.read_eq_error hr
        cases he
      | unkeyed _ hr hk => cases (ha.keyed _ hr).symm.trans hk
      | lost | rootless | nameless => cases he
    · rintro ⟨source, hr, hp⟩
      exact ⟨_, _, _, _, _, hsame (.unparseable ha.placed hr (ha.keyed _ hr) hp)⟩
  · constructor
    · rintro ⟨path, reason, details, rfl⟩
      generalize he : Failure.shapeless path reason details = f at hd
      cases hd with
      | rootless henters hc => exact ⟨_, _, henters, .inl ⟨_, hc⟩⟩
      | nameless henters hc hn => exact ⟨_, _, henters, .inr ⟨_, _, hc, hn⟩⟩
      | unreadable _ hr =>
        obtain ⟨reason, suggestions, rfl⟩ := ha.read_eq_error hr
        cases he
      | unkeyed _ hr hk => cases (ha.keyed _ hr).symm.trans hk
      | lost | unparseable => cases he
    · rintro ⟨m, τ, henters, ⟨υ, hc⟩ | ⟨l, υ, hc, hn⟩⟩
      · exact ⟨_, _, _, hsame (.rootless henters hc)⟩
      · exact ⟨_, _, _, hsame (.nameless henters hc hn)⟩
  · intro c
    constructor
    · rintro rfl
      generalize he : (Except.ok c : Except Failure Command) = r at hd
      cases hd with
      | tree henters hc hn hb => exact ⟨_, _, _, _, _, _, henters, hc, hn, hb, Except.ok.inj he⟩
      | lost | unreadable | unkeyed | unparseable | rootless | nameless => cases he
    · rintro ⟨m, τ, l, υ, c', φ, henters, hc, hn, hb, rfl⟩
      exact hsame (.tree henters hc hn hb)

theorem FailsByEntry.admits (hf : FailsByEntry w entry σ ((discover w entry).run σ).1)
    (h : w.TrustsAt σ.cache entry) : w.Admits σ.cache.enabled entry := by
  by_contra ha
  obtain ⟨kind, message, hr⟩ := (discover_unexpected_iff h).2 ha
  rcases hf.kinds _ hr with ⟨_, _, hk⟩ | hk | ⟨_, _, hk⟩ <;> cases hk

/-- Discovery fails only by the state of the entry file or for want of a named main command, exactly
if its path is one that the system and the cache take. Any other file that cannot be loaded only
makes candidates be skipped and subcommands or spreads be unresolved. -/
theorem discover_failsByEntry_iff (w : Workspace) (entry : String) (σ : Session)
    (h : w.TrustsAt σ.cache entry) :
    FailsByEntry w entry σ ((discover w entry).run σ).1 ↔ w.Admits σ.cache.enabled entry :=
  ⟨fun hf ↦ hf.admits h, fun ha ↦ ha.failsByEntry h⟩

theorem trustsAt_of_empty {cache : ParseCache Float Node} (h : cache.entries.entries = []) :
    w.TrustsAt cache entry :=
  trustsAt_of_lacks fun source hr he e hmem ↦ by simp [h] at hmem

def danglingWorkspace : Workspace where
  files := .single "a.mjs" "import m from './b.mjs'\nrunMain(m)\n".toUTF8.toList
  maxFileSize := 100

theorem discover_failsByEntry_dangling :
    danglingWorkspace.TrustsAt { ttl := 3600, maxSize := 1 } "a.mjs" ∧
      danglingWorkspace.Admits true "a.mjs" ∧
      FailsByEntry danglingWorkspace "a.mjs" { cache := { ttl := 3600, maxSize := 1 } }
        ((discover danglingWorkspace "a.mjs").run { cache := { ttl := 3600, maxSize := 1 } }).1 := by
  have htrusts : danglingWorkspace.TrustsAt { ttl := 3600, maxSize := 1 } "a.mjs" :=
    trustsAt_of_empty rfl
  have hadmits : danglingWorkspace.Admits true "a.mjs" := by
    refine ⟨?_, rfl, fun source hr ↦ ?_⟩
    · rintro ⟨-, hhere⟩
      cases hhere
    · rw [Workspace.keyFailure?, if_pos rfl]
      exact congrArg (Option.map _) (Text.encodeFault?_none _)
  exact ⟨htrusts, hadmits, (discover_failsByEntry_iff _ _ _ htrusts).2 hadmits⟩

def limitedWorkspace : Workspace where
  files := FileTree.limited {}
  maxFileSize := 100

theorem lookFault?_limited {name : String} (hn : Path.isName name = true)
    (hlong : FileTree.isOverlong (fun _ ↦ none) [name] (.directory []) = true) :
    limitedWorkspace.files.lookFault? (FileTree.plainPath name) =
      some ⟨36, "File name too long"⟩ := by
  have hpart := (Path.isName_iff.1 hn).1
  have hparts : limitedWorkspace.files.spelledParts (FileTree.plainPath name) = [name] := by
    have hplain : Path.isAbsolute (FileTree.plainPath name) = false := by
      rw [FileTree.isAbsolute_plainPath, Path.isAbsolute_eq_false hpart.2.2]
    rw [FileTree.spelledParts, FileTree.absolute]
    refine (Path.names_absolute (fun s hs ↦ by cases hs) hplain).trans ?_
    rw [FileTree.names_plainPath, Path.names_of_isPart hpart]
    exact (Path.normalizeParts_concat hn : Path.normalizeParts true [] ([] ++ [name]) = _)
  have hrefused : limitedWorkspace.files.refusal [name] =
      some (.look ⟨36, "File name too long"⟩) := if_pos hlong
  rw [FileTree.lookFault?, FileTree.refusal?, hparts, hrefused]
  rfl

def repeated (n : Nat) : String := String.ofList (List.replicate n 'a')

theorem isName_repeated {n : Nat} (hn : 2 < n) : Path.isName (repeated n) = true := by
  have hchars : (repeated n).toList = List.replicate n 'a' := String.toList_ofList
  have hne (s : String) (hs : s.toList.length ≤ 2) : repeated n ≠ s := by
    rintro rfl
    rw [hchars, List.length_replicate] at hs
    omega
  rw [Path.isName_iff]
  exact ⟨⟨hne _ (by decide), hne _ (by decide), by simp [hchars]⟩, hne _ (by decide)⟩

theorem nameSize_repeated (n : Nat) : FileTree.nameSize (fun _ ↦ none) (repeated n) = n := by
  have hfold (k : Nat) :
      (List.replicate n 'a').foldl (fun size c ↦ size + Char.utf8Size c) k = k + n := by
    induction n generalizing k with
    | zero => rfl
    | succ n ih =>
      rw [List.replicate_succ, List.foldl_cons, ih, show Char.utf8Size 'a' = 1 by decide]
      omega
  simp [FileTree.nameSize, repeated, hfold]

theorem isOverlong_repeated {n : Nat} (hn : 255 < n) :
    FileTree.isOverlong (fun _ ↦ none) [repeated n] (.directory []) = true := by
  simp [FileTree.isOverlong, nameSize_repeated, hn, Entry.isDirectory]

theorem exists_not_failsByEntry : ∃ entry, ∃ σ : Session, limitedWorkspace.TrustsAt σ.cache entry ∧
    ¬FailsByEntry limitedWorkspace entry σ ((discover limitedWorkspace entry).run σ).1 := by
  refine ⟨repeated 300, { cache := { ttl := 3600, maxSize := 1 } }, trustsAt_of_empty rfl, ?_⟩
  intro hf
  have ha := hf.admits (trustsAt_of_empty rfl)
  have hrefused := lookFault?_limited (isName_repeated (by decide : 2 < 300))
    (isOverlong_repeated (by decide))
  cases ha.seen.symm.trans hrefused

end CommandCoverage
