import CommandCoverage.Discovery.Resolution
import CommandCoverage.Proofs.Discovery.Loading

namespace CommandCoverage

open Script Analysis

def Query.module : Query → Module
  | .source _ m => m
  | .exported _ m => m
  | .starred _ _ m => m

inductive Moves : Query → Query → Prop
  | ofImport {m : Module} {name : String} {i : Import} (h : m.imports.get? name = some i) :
      Moves (.source (.bound name) m) (.source (.imported i m.path) m)
  | ofPassed {m : Module} {name : String} {i : Import}
      (h : m.exports.get? name = some (.passed i)) :
      Moves (.exported name m) (.source (.imported i m.path) m)
  | ofBound {m : Module} {name inner : String} (h : m.exports.get? name = some (.bound inner)) :
      Moves (.exported name m) (.source (.bound inner) m)
  | ofValue {m : Module} {name : String} {v : Node} (h : m.exports.get? name = some (.value v)) :
      Moves (.exported name m) (.source (m.classify (some v)) m)
  | ofStars {m : Module} {name : String} (h : m.exports.get? name = none) :
      Moves (.exported name m) (.starred name m.stars m)

structure Binds (m : Module) (name : String) (v : Node) : Prop where
  noImport : m.imports.get? name = none
  value : m.bindings.get? name = some v

/-- An import and the path that it leads to; none is followed if only the module itself counts. -/
structure LeadsTo (w : Workspace) (localOnly : Bool) (i : Import) (fromFile path : String) :
    Prop where
  allowed : localOnly = false
  resolved : w.files.resolveModule i.specifier fromFile = some path

inductive Answers (w : Workspace) (localOnly : Bool) (passed : List Passed) :
    Query → Except Unresolved Located → Prop
  | unresolved {why : Obstacle} {line : Nat} {m : Module} :
      Answers w localOnly passed (.source (.unresolved why line) m) (.error (.obstacle why))
  | definition {obj : Node} {m : Module} (h : obj.looksLikeCommand = true) :
      Answers w localOnly passed (.source (.inline obj) m) (.ok ⟨obj, m⟩)
  | other {obj : Node} {m : Module} (h : obj.looksLikeCommand = false) :
      Answers w localOnly passed (.source (.inline obj) m) (.error .notDefinition)
  | again {name : String} {m : Module} (h : m.imports.get? name = none)
      (hp : .name m.path name ∈ passed) :
      Answers w localOnly passed (.source (.bound name) m) (.error (.selfReference name))
  | undefined {name : String} {m : Module} (h : m.imports.get? name = none)
      (hb : m.bindings.get? name = none) (hp : .name m.path name ∉ passed) :
      Answers w localOnly passed (.source (.bound name) m) (.error (.undefinedName name m.path))
  | elsewhere {i : Import} {fromFile : String} {m : Module} (h : localOnly = true) :
      Answers w localOnly passed (.source (.imported i fromFile) m)
        (.error (.otherFile i.specifier))
  | nowhere {i : Import} {fromFile : String} {m : Module} (h : localOnly = false)
      (hr : w.files.resolveModule i.specifier fromFile = none) :
      Answers w localOnly passed (.source (.imported i fromFile) m)
        (.error (.missingModule i.specifier fromFile))
  | cycle {i : Import} {fromFile path : String} {m : Module}
      (h : LeadsTo w localOnly i fromFile path)
      (hp : .exported (w.files.absolute path) i.name ∈ passed) :
      Answers w localOnly passed (.source (.imported i fromFile) m)
        (.error (.importCycle path i.name))
  | noExport {name : String} {m : Module} :
      Answers w localOnly passed (.starred name [] m) (.error (.missingExport m.path name))

/-- Following a query from a session gives a result and leads to another session. -/
inductive Follows (w : Workspace) (localOnly : Bool) : List Passed → Query → Session →
    Except Unresolved Located → Session → Prop
  | answer {passed : List Passed} {q : Query} {r : Except Unresolved Located} {σ : Session}
      (h : Answers w localOnly passed q r) : Follows w localOnly passed q σ r σ
  | move {passed : List Passed} {q q' : Query} {r : Except Unresolved Located} {σ τ : Session}
      (h : Moves q q') (hf : Follows w localOnly passed q' σ r τ) :
      Follows w localOnly passed q σ r τ
  | binding {passed : List Passed} {name : String} {m : Module} {v : Node}
      {r : Except Unresolved Located} {σ τ : Session} (h : Binds m name v)
      (hp : .name m.path name ∉ passed)
      (hf : Follows w localOnly (.name m.path name :: passed) (.source (m.classify (some v)) m) σ
        r τ) : Follows w localOnly passed (.source (.bound name) m) σ r τ
  | unloadable {passed : List Passed} {i : Import} {fromFile path : String} {m : Module}
      {f : Failure} {σ τ : Session} (h : LeadsTo w localOnly i fromFile path)
      (hp : .exported (w.files.absolute path) i.name ∉ passed)
      (hl : Loads w path σ (.error f) τ) :
      Follows w localOnly passed (.source (.imported i fromFile) m) σ (.error (.unloadable f)) τ
  | imported {passed : List Passed} {i : Import} {fromFile path : String} {m target : Module}
      {r : Except Unresolved Located} {σ τ υ : Session} (h : LeadsTo w localOnly i fromFile path)
      (hp : .exported (w.files.absolute path) i.name ∉ passed)
      (hl : Loads w path σ (.ok target) τ)
      (hf : Follows w localOnly (.exported (w.files.absolute path) i.name :: passed)
        (.exported i.name target) τ r υ) :
      Follows w localOnly passed (.source (.imported i fromFile) m) σ r υ
  | star {passed : List Passed} {name specifier : String} {specifiers : List String} {m : Module}
      {l : Located} {σ τ : Session}
      (h : Follows w localOnly passed (.source (.imported ⟨specifier, name⟩ m.path) m) σ (.ok l) τ) :
      Follows w localOnly passed (.starred name (specifier :: specifiers) m) σ (.ok l) τ
  | nextStar {passed : List Passed} {name specifier : String} {specifiers : List String}
      {m : Module} {why : Unresolved} {r : Except Unresolved Located} {σ τ υ : Session}
      (h : Follows w localOnly passed (.source (.imported ⟨specifier, name⟩ m.path) m) σ
        (.error why) τ)
      (hf : Follows w localOnly passed (.starred name specifiers m) τ r υ) :
      Follows w localOnly passed (.starred name (specifier :: specifiers) m) σ r υ

variable {w : Workspace} {localOnly : Bool} {passed : List Passed} {q q' : Query}
  {r : Except Unresolved Located} {σ τ υ : Session}

theorem LeadsTo.importable {i : Import} {fromFile path : String}
    (h : LeadsTo w localOnly i fromFile path) : w.files.Importable path :=
  ⟨_, _, h.resolved⟩

theorem Moves.module_eq (h : Moves q q') : q'.module = q.module := by
  cases h <;> rfl

namespace Unbounded

theorem step_apply {α : Type} (x : Analysis α) (σ : Session) : step x σ = some (x.run σ) := rfl

theorem bind_apply {α β : Type} (x : Unbounded α) (f : α → Unbounded β) (σ : Session) :
    (x >>= f) σ = (x σ).bind fun p ↦ f p.1 p.2 := rfl

theorem map_apply {α β : Type} (f : α → β) (x : Unbounded α) (σ : Session) :
    (f <$> x) σ = (x σ).map fun p ↦ (f p.1, p.2) := by
  rw [← bind_pure_comp, bind_apply]
  cases x σ <;> rfl

theorem pure_apply {α : Type} (a : α) (σ : Session) : (pure a : Unbounded α) σ = some (a, σ) := rfl

theorem outcome_run {α : Type} [Inhabited α] (x : Unbounded α) (σ : Session) :
    x.outcome.run σ = (x σ).getD (default, σ) := rfl

end Unbounded

open Unbounded

theorem Answers.eval (h : Answers w localOnly passed q r) (σ : Session) :
    follow w localOnly passed q σ = some (r, σ) := by
  rw [Workspace.follow.eq_def]
  cases h with
  | unresolved => rfl
  | definition h => simp [h, pure_apply]
  | other h => simp [h, pure_apply]
  | again h hp => simp [h, hp, pure_apply]
  | undefined h hb hp => simp [h, hb, hp, pure_apply]
  | elsewhere h => simp [h, pure_apply]
  | nowhere h hr => simp [h, hr, pure_apply]
  | cycle h hp => simp [h.allowed, h.resolved, hp, pure_apply]
  | noExport => rfl

theorem Moves.eval (h : Moves q q') (σ : Session) :
    follow w localOnly passed q σ = follow w localOnly passed q' σ := by
  rw [Workspace.follow.eq_def]
  cases h with
  | ofImport h => simp [h]
  | ofPassed h => simp [h]
  | ofBound h => simp [h]
  | ofValue h => simp [h]
  | ofStars h => simp [h]

theorem Follows.later (h : Follows w localOnly passed q σ r τ) : Later w σ τ := by
  induction h with
  | answer => exact .refl
  | move _ _ ih => exact ih
  | binding _ _ _ ih => exact ih
  | unloadable h _ hl => exact .of_load h.importable hl
  | imported h _ hl _ ih => exact (Later.of_load h.importable hl).trans ih
  | star _ ih => exact ih
  | nextStar _ _ ih ih' => exact ih.trans ih'

theorem Follows.warnings (h : Follows w localOnly passed q σ r τ) : τ.warnings = σ.warnings := by
  induction h with
  | answer => rfl
  | move _ _ ih => exact ih
  | binding _ _ _ ih => exact ih
  | unloadable _ _ hl => exact hl.warnings
  | imported _ _ hl _ ih => exact ih.trans hl.warnings
  | star _ ih => exact ih
  | nextStar _ _ ih ih' => exact ih'.trans ih

theorem Follows.eval (h : Follows w localOnly passed q σ r τ) :
    follow w localOnly passed q σ = some (r, τ) := by
  induction h with
  | answer h => exact h.eval _
  | move h _ ih => rw [h.eval, ih]
  | binding h hp _ ih =>
    rw [Workspace.follow.eq_def]
    simp [h.noImport, hp, h.value, ih]
  | unloadable h hp hl =>
    rw [Workspace.follow.eq_def]
    simp [h.allowed, h.resolved, hp, bind_apply, step_apply, hl.run, pure_apply]
  | imported h hp hl _ ih =>
    rw [Workspace.follow.eq_def]
    simpa [h.allowed, h.resolved, hp, bind_apply, step_apply, hl.run] using ih
  | star _ ih =>
    rw [Workspace.follow.eq_def]
    simp [bind_apply, ih, pure_apply]
  | nextStar _ _ ih ih' =>
    rw [Workspace.follow.eq_def]
    simp [bind_apply, ih, ih']

section termination

/-- The values that names of a module are bound to and that it exports. -/
def Script.Module.held (m : Module) : Set Node :=
  {v | (∃ k, m.bindings.get? k = some v) ∨ ∃ k, m.exports.get? k = some (.value v)}

inductive Script.Module.Asks (m : Module) : String → Prop
  | imports {k : String} {i : Import} (h : m.imports.get? k = some i) : Asks m i.name
  | passed {k : String} {i : Import} (h : m.exports.get? k = some (.passed i)) : Asks m i.name
  | value {v : Node} {i : Import} {fromFile : String} (hv : v ∈ m.held)
      (h : m.classify (some v) = .imported i fromFile) : Asks m i.name

theorem Script.Module.finite_held (m : Module) : m.held.Finite := by
  have hexports : {v | ∃ k, m.exports.get? k = some (.value v)}.Finite :=
    (Table.finite_gets m.exports).preimage (f := Export.value) fun _ _ _ _ h ↦ Export.value.inj h
  exact (Table.finite_gets m.bindings).union hexports

theorem Script.Module.finite_asks (m : Module) : {n | m.Asks n}.Finite := by
  have hpassed : {i | ∃ k, m.exports.get? k = some (.passed i)}.Finite :=
    (Table.finite_gets m.exports).preimage (f := Export.passed) fun _ _ _ _ h ↦ Export.passed.inj h
  have hvalues : (⋃ v ∈ m.held, {n | ∃ i fromFile,
      m.classify (some v) = .imported i fromFile ∧ i.name = n}).Finite := by
    refine m.finite_held.biUnion fun v _ ↦ Set.Subsingleton.finite ?_
    rintro _ ⟨i, fromFile, h, rfl⟩ _ ⟨j, fromFile', h', rfl⟩
    obtain ⟨rfl, -⟩ := Source.imported.inj (h.symm.trans h')
    rfl
  refine (((Table.finite_gets m.imports).image (·.name)).union
    ((hpassed.image (·.name)).union hvalues)).subset ?_
  rintro n (h | h | ⟨hv, h⟩)
  · exact .inl ⟨_, ⟨_, h⟩, rfl⟩
  · exact .inr (.inl ⟨_, ⟨_, h⟩, rfl⟩)
  · exact .inr (.inr (Set.mem_biUnion hv ⟨_, _, h, rfl⟩))

inductive Query.Asks : Query → String → Prop
  | source {i : Import} {fromFile : String} {m : Module} :
      Asks (.source (.imported i fromFile) m) i.name
  | exported {name : String} {m : Module} : Asks (.exported name m) name
  | starred {name : String} {specifiers : List String} {m : Module} :
      Asks (.starred name specifiers m) name

/-- The modules that one may come through from a module without reading another one. -/
def around (t : Table Module) (m : Module) : Set Module := {n | ∃ k, t.get? k = some n} ∪ {m}

def asked (t : Table Module) (q : Query) : Set String :=
  {n | q.Asks n} ∪ {n | ∃ m ∈ around t q.module, m.Asks n}

inductive Marks (w : Workspace) (t : Table Module) (q : Query) : Passed → Prop
  | name {m : Module} {n : String} (hm : m ∈ around t q.module) (hn : (m.bindings.get? n).isSome) :
      Marks w t q (.name m.path n)
  | exported {k n : String} (hk : k ∈ w.places ∨ (t.get? k).isSome) (hn : n ∈ asked t q) :
      Marks w t q (.exported k n)

variable {t : Table Module}

theorem finite_around (t : Table Module) (m : Module) : (around t m).Finite :=
  (Table.finite_gets t).union (Set.finite_singleton _)

theorem around_subset {m n : Module} (h : m ∈ around t n) : around t m ⊆ around t n := by
  rintro x (hx | rfl)
  · exact .inl hx
  · exact h

theorem finite_asked (t : Table Module) (q : Query) : (asked t q).Finite := by
  have hq : {n | q.Asks n}.Subsingleton := by
    rintro a ⟨⟩ b ⟨⟩ <;> rfl
  refine hq.finite.union (((finite_around t q.module).biUnion fun m _ ↦ m.finite_asks).subset ?_)
  rintro n ⟨m, hm, hn⟩
  exact Set.mem_biUnion hm hn

theorem finite_marks (w : Workspace) (t : Table Module) (q : Query) :
    {μ | Marks w t q μ}.Finite := by
  have hnames : {μ | ∃ m ∈ around t q.module, ∃ n, (m.bindings.get? n).isSome ∧
      Passed.name m.path n = μ}.Finite := by
    refine ((finite_around t q.module).biUnion fun m _ ↦
      ((Table.finite_names m.bindings).image (Passed.name m.path))).subset ?_
    rintro μ ⟨m, hm, n, hn, rfl⟩
    exact Set.mem_biUnion hm ⟨n, hn, rfl⟩
  have hexports := (((finite_places w).union (Table.finite_names t)).prod
    (finite_asked t q)).image fun p ↦ Passed.exported p.1 p.2
  refine (hnames.union hexports).subset ?_
  rintro μ (⟨hm, hn⟩ | ⟨hk, hn⟩)
  · exact .inl ⟨_, hm, _, hn, rfl⟩
  · exact .inr ⟨(_, _), ⟨hk, hn⟩, rfl⟩

noncomputable def unmarked (w : Workspace) (t : Table Module) (passed : List Passed) (q : Query) :
    Nat :=
  {μ | Marks w t q μ ∧ μ ∉ passed}.ncard

structure Narrows (t : Table Module) (q q' : Query) : Prop where
  module : q'.module ∈ around t q.module
  asks : ∀ n, q'.Asks n → n ∈ asked t q

theorem Narrows.marks (h : Narrows t q q') {μ : Passed} (hμ : Marks w t q' μ) : Marks w t q μ := by
  have haround := around_subset h.module
  have hasked : asked t q' ⊆ asked t q := by
    rintro n (hn | ⟨m, hm, hn⟩)
    · exact h.asks n hn
    · exact .inr ⟨m, haround hm, hn⟩
  cases hμ with
  | name hm hn => exact .name (haround hm) hn
  | exported hk hn => exact .exported hk (hasked hn)

theorem Narrows.unmarked_le (h : Narrows t q q') :
    unmarked w t passed q' ≤ unmarked w t passed q :=
  Set.ncard_le_ncard (fun _ ⟨hμ, hp⟩ ↦ ⟨h.marks hμ, hp⟩)
    ((finite_marks w t q).subset fun _ hμ ↦ hμ.1)

theorem Narrows.unmarked_lt (h : Narrows t q q') {μ : Passed} (hμ : Marks w t q μ)
    (hp : μ ∉ passed) : unmarked w t (μ :: passed) q' < unmarked w t passed q := by
  refine Set.ncard_lt_ncard ⟨?_, fun hs ↦ ?_⟩ ((finite_marks w t q).subset fun _ hμ ↦ hμ.1)
  · rintro ν ⟨hν, hn⟩
    exact ⟨h.marks hν, fun hm ↦ hn (List.mem_cons_of_mem _ hm)⟩
  · exact (hs ⟨hμ, hp⟩).2 List.mem_cons_self

theorem Moves.narrows (h : Moves q q') : Narrows t q q' := by
  refine ⟨.inr h.module_eq, fun n hn ↦ ?_⟩
  have haround : q.module ∈ around t q.module := .inr rfl
  cases h with
  | ofImport h => cases hn; exact .inr ⟨_, haround, .imports h⟩
  | ofPassed h => cases hn; exact .inr ⟨_, haround, .passed h⟩
  | ofBound h => cases hn
  | ofStars h => cases hn; exact .inl .exported
  | @ofValue m _ v h =>
    generalize hs : m.classify (some v) = s at hn
    cases hn
    exact .inr ⟨_, haround, .value (.inr ⟨_, h⟩) hs⟩

theorem Binds.narrows {m : Module} {name : String} {v : Node} (h : Binds m name v) :
    Narrows t (.source (.bound name) m) (.source (m.classify (some v)) m) := by
  refine ⟨.inr rfl, fun n hn ↦ ?_⟩
  generalize hs : m.classify (some v) = s at hn
  cases hn
  exact .inr ⟨_, .inr rfl, .value (.inl ⟨_, h.value⟩) hs⟩

def Query.rank : Query → Nat
  | .source (.bound _) _ => 2
  | .source (.imported ..) _ => 1
  | .source _ _ => 0
  | .exported _ m => m.stars.length + 4
  | .starred _ specifiers _ => specifiers.length + 3

theorem rank_source_le (s : Source) (m : Module) : (Query.source s m).rank ≤ 2 := by
  cases s <;> simp [Query.rank]

theorem Moves.rank_lt (h : Moves q q') : q'.rank < q.rank := by
  cases h with
  | ofImport => exact Nat.one_lt_two
  | ofPassed => simp [Query.rank]
  | ofBound => simp [Query.rank]
  | ofValue => exact (rank_source_le _ _).trans_lt (by simp [Query.rank])
  | ofStars => simp [Query.rank]

/-- What is still to be done weighs less after a step: there are fewer places to read, or else fewer
marks to leave, or else the query is smaller. -/
def Lighter (w : Workspace) (passed' : List Passed) (q' : Query) (τ : Session)
    (passed : List Passed) (q : Query) (σ : Session) : Prop :=
  Prod.Lex (· < ·) (Prod.Lex (· < ·) (· < ·))
    (unread w τ, unmarked w τ.modules passed' q', q'.rank)
    (unread w σ, unmarked w σ.modules passed q, q.rank)

theorem lighter_of_later (h : Later w σ τ) (hn : Narrows σ.modules q q') (hr : q'.rank < q.rank) :
    Lighter w passed q' τ passed q σ := by
  refine h.lex fun hu ↦ ?_
  rw [hu]
  rcases hn.unmarked_le.lt_or_eq with hlt | heq
  · exact .left _ _ hlt
  · exact heq ▸ .right _ hr

theorem lighter_of_mark {μ : Passed} (hn : Narrows σ.modules q q') (hμ : Marks w σ.modules q μ)
    (hp : μ ∉ passed) : Lighter w (μ :: passed) q' σ passed q σ :=
  .right _ (.left _ _ (hn.unmarked_lt hμ hp))

theorem lighter_of_load {i : Import} {fromFile path : String} {m target : Module}
    (h : LeadsTo w localOnly i fromFile path)
    (hp : .exported (w.files.absolute path) i.name ∉ passed)
    (hl : Loads w path σ (.ok target) τ) :
    Lighter w (.exported (w.files.absolute path) i.name :: passed) (.exported i.name target) τ
      passed (.source (.imported i fromFile) m) σ := by
  cases hl with
  | known hk =>
    refine lighter_of_mark ⟨.inl ⟨_, hk⟩, fun n hn ↦ ?_⟩ (.exported (.inr ?_) (.inl .source)) hp
    · cases hn
      exact .inl .source
    · rw [hk]
      rfl
  | cached hn hr | parsed hn hr =>
    exact .left _ _ (unread_set_lt (mem_places h.importable hr) hn rfl)

theorem narrows_star (name specifier : String) (specifiers : List String) (m : Module) :
    Narrows t (.starred name (specifier :: specifiers) m)
      (.source (.imported ⟨specifier, name⟩ m.path) m) := by
  refine ⟨.inr rfl, fun n hn ↦ ?_⟩
  cases hn
  exact .inl .starred

theorem narrows_nextStar (name specifier : String) (specifiers : List String) (m : Module) :
    Narrows t (.starred name (specifier :: specifiers) m) (.starred name specifiers m) := by
  refine ⟨.inr rfl, fun n hn ↦ ?_⟩
  cases hn
  exact .inl .starred

theorem exists_follows (w : Workspace) (localOnly : Bool) (passed : List Passed) (q : Query)
    (σ : Session) : ∃ r τ, Follows w localOnly passed q σ r τ := by
  have hmove {q' : Query} (h : Moves q q') : Lighter w passed q' σ passed q σ :=
    lighter_of_later .refl h.narrows h.rank_lt
  match q with
  | .source (.unresolved why line) m => exact ⟨_, _, .answer .unresolved⟩
  | .source (.inline obj) m =>
    cases h : obj.looksLikeCommand with
    | true => exact ⟨_, _, .answer (.definition h)⟩
    | false => exact ⟨_, _, .answer (.other h)⟩
  | .source (.bound name) m =>
    cases hi : m.imports.get? name with
    | some i =>
      obtain ⟨r, τ, h⟩ := exists_follows w localOnly passed (.source (.imported i m.path) m) σ
      exact ⟨r, τ, .move (.ofImport hi) h⟩
    | none =>
      by_cases hp : Passed.name m.path name ∈ passed
      · exact ⟨_, _, .answer (.again hi hp)⟩
      · cases hv : m.bindings.get? name with
        | none => exact ⟨_, _, .answer (.undefined hi hv hp)⟩
        | some v =>
          obtain ⟨r, τ, h⟩ := exists_follows w localOnly (.name m.path name :: passed)
            (.source (m.classify (some v)) m) σ
          exact ⟨r, τ, .binding ⟨hi, hv⟩ hp h⟩
  | .source (.imported i fromFile) m =>
    cases hl : localOnly with
    | true => exact ⟨_, _, .answer (.elsewhere rfl)⟩
    | false =>
      cases hr : w.files.resolveModule i.specifier fromFile with
      | none => exact ⟨_, _, .answer (.nowhere rfl hr)⟩
      | some path =>
        have hleads : LeadsTo w false i fromFile path := ⟨rfl, hr⟩
        by_cases hp : Passed.exported (w.files.absolute path) i.name ∈ passed
        · exact ⟨_, _, .answer (.cycle hleads hp)⟩
        · have hload := loads_load w path σ
          generalize (load w path).run σ = x at hload
          obtain ⟨f | target, τ⟩ := x
          · exact ⟨_, _, .unloadable hleads hp hload⟩
          · obtain ⟨r, υ, h⟩ := exists_follows w false
              (.exported (w.files.absolute path) i.name :: passed) (.exported i.name target) τ
            exact ⟨r, υ, .imported hleads hp hload h⟩
  | .exported name m =>
    have hnext {q' : Query} (h : Moves (.exported name m) q') :
        ∃ r τ, Follows w localOnly passed (.exported name m) σ r τ := by
      obtain ⟨r, τ, hf⟩ := exists_follows w localOnly passed q' σ
      exact ⟨r, τ, .move h hf⟩
    cases he : m.exports.get? name with
    | none => exact hnext (.ofStars he)
    | some e =>
      cases e with
      | bound inner => exact hnext (.ofBound he)
      | value v => exact hnext (.ofValue he)
      | passed i => exact hnext (.ofPassed he)
  | .starred name [] m => exact ⟨_, _, .answer .noExport⟩
  | .starred name (specifier :: specifiers) m =>
    obtain ⟨r, τ, h⟩ := exists_follows w localOnly passed
      (.source (.imported ⟨specifier, name⟩ m.path) m) σ
    cases r with
    | ok l => exact ⟨_, _, .star h⟩
    | error why =>
      obtain ⟨r, υ, h'⟩ := exists_follows w localOnly passed (.starred name specifiers m) τ
      exact ⟨r, υ, .nextStar h h'⟩
termination_by (unread w σ, unmarked w σ.modules passed q, q.rank)
decreasing_by
  · exact lighter_of_mark (Binds.narrows ⟨hi, hv⟩) (.name (.inr rfl) (by simp [hv])) hp
  · exact hmove (.ofImport hi)
  · exact lighter_of_load hleads hp hload
  · exact hmove h
  · exact lighter_of_later .refl (narrows_star _ _ _ _) (by simp [Query.rank])
  · exact lighter_of_later h.later (narrows_nextStar _ _ _ _) (by simp [Query.rank])

end termination

end CommandCoverage
