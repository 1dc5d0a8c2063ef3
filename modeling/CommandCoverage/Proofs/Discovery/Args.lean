import CommandCoverage.Proofs.Discovery.Scope

namespace CommandCoverage

open Script Analysis Scope

variable {w : Workspace} {s : Scope} {m : Module} {l : Located} {r : Option Located}
  {σ τ υ : Session}

theorem run_bind {α β : Type} (x : Analysis α) (f : α → Analysis β) (σ : Session) :
    (x >>= f).run σ = (f (x.run σ).1).run (x.run σ).2 := rfl

/-- A search leads to a later session without new warnings, and what it finds is met from a scope. -/
structure Finds (w : Workspace) (s : Scope) (σ : Session) (r : Option Located) (τ : Session) :
    Prop where
  later : Later w σ τ
  warnings : τ.warnings = σ.warnings
  inside : ∀ l, r = some l → l.scope.Inside τ.modules s

theorem finds_none (h : Later w σ τ) (hw : τ.warnings = σ.warnings) : Finds w s σ none τ :=
  ⟨h, hw, nofun⟩

theorem finds_some (h : l.scope.Inside σ.modules s) : Finds w s σ (some l) σ :=
  ⟨.refl, rfl, fun _ hl ↦ Option.some_inj.1 hl ▸ h⟩

theorem Finds.after (h : Later w σ τ) (hw : τ.warnings = σ.warnings) (hf : Finds w s τ r υ) :
    Finds w s σ r υ :=
  ⟨h.trans hf.later, hf.warnings.trans hw, hf.inside⟩

theorem Finds.of_held {k : String} {roots : List Node} (hf : Finds w ⟨m, roots⟩ σ r τ)
    (hk : σ.modules.get? k = some m) (hr : ∀ v ∈ roots, v ∈ m.held) : Finds w s σ r τ :=
  ⟨hf.later, hf.warnings, fun l hl ↦ (hf.inside l hl).trans (inside_of_held (hf.later.get? hk) hr)⟩

theorem finds_firstSome {α : Type} {f : α → Analysis (Option Located)}
    (hf : ∀ a σ, Finds w s σ ((f a).run σ).1 ((f a).run σ).2) (as : List α) (σ : Session) :
    Finds w s σ ((firstSome f as).run σ).1 ((firstSome f as).run σ).2 := by
  induction as generalizing σ with
  | nil => exact finds_none .refl rfl
  | cons a as ih =>
    have h := hf a σ
    rw [firstSome, run_bind]
    rcases hr : (f a).run σ with ⟨_ | l, τ⟩
    · rw [hr] at h
      exact (ih τ).after h.later h.warnings
    · rw [hr] at h
      exact h

inductive SpreadQuery.StartsIn : SpreadQuery → Scope → Prop
  | value {v : Option Node} {m : Module} : StartsIn (.value v m) ⟨m, v.toList⟩
  | imported {i : Import} {fromFile : String} {s : Scope} : StartsIn (.imported i fromFile) s

def SearchesWithin (w : Workspace) (steps : Nat) : Prop :=
  ∀ (q : SpreadQuery) (s : Scope) (σ : Session), q.StartsIn s →
    Finds w s σ ((spreadWithin w steps q).run σ).1 ((spreadWithin w steps q).run σ).2

theorem searchesWithin_zero : SearchesWithin w 0 := by
  intro q s σ h
  cases h with
  | imported => exact finds_none .refl rfl
  | @value v m =>
    rw [spreadWithin]
    cases ho : m.object v with
    | none => exact finds_none .refl rfl
    | some obj => exact finds_some (inside_object ho)

theorem SearchesWithin.value {steps : Nat} (hs : SearchesWithin w steps) (v : Option Node)
    (m : Module) (σ : Session) :
    Finds w ⟨m, v.toList⟩ σ ((spreadWithin w (steps + 1) (.value v m)).run σ).1
      ((spreadWithin w (steps + 1) (.value v m)).run σ).2 := by
  rw [spreadWithin.eq_def]
  cases ho : m.object v with
  | some obj =>
    simp only [ho]
    exact finds_some (inside_object ho)
  | none =>
    simp only [ho]
    cases v with
    | none => exact finds_none .refl rfl
    | some v =>
      dsimp only
      cases m.classify (some v) with
      | imported i fromFile => exact hs _ _ σ .imported
      | inline => exact finds_none .refl rfl
      | bound => exact finds_none .refl rfl
      | unresolved => exact finds_none .refl rfl

theorem SearchesWithin.imported {steps : Nat} (hs : SearchesWithin w steps) (i : Import)
    (fromFile : String) (σ : Session) :
    Finds w s σ ((spreadWithin w (steps + 1) (.imported i fromFile)).run σ).1
      ((spreadWithin w (steps + 1) (.imported i fromFile)).run σ).2 := by
  rw [spreadWithin]
  cases hp : w.files.resolveModule i.specifier fromFile with
  | none => exact finds_none .refl rfl
  | some path =>
    have hload := loads_load w path σ
    have hlater := Later.of_load ⟨_, _, hp⟩ hload
    have hwarnings := hload.warnings
    dsimp only
    rw [run_bind]
    generalize ((load w path).run σ).2 = τ at hload hlater hwarnings ⊢
    cases hl : ((load w path).run σ).1 with
    | error => exact finds_none hlater hwarnings
    | ok target =>
      rw [hl] at hload
      have hk := hload.get?
      refine Finds.after hlater hwarnings ?_
      dsimp only
      cases he : target.exports.get? i.name with
      | none => exact finds_firstSome (fun star τ ↦ hs _ _ τ .imported) _ τ
      | some e =>
        cases e with
        | passed j => exact hs _ _ τ .imported
        | value v =>
          refine (hs _ _ τ .value).of_held hk fun u hu ↦ .inr ⟨i.name, ?_⟩
          rw [he, List.mem_singleton.1 hu]
        | bound name =>
          dsimp only
          cases target.imports.get? name with
          | some j => exact hs _ _ τ .imported
          | none =>
            exact (hs _ _ τ .value).of_held hk fun u hu ↦ .inl ⟨name, Option.mem_toList.1 hu⟩

theorem searchesWithin (steps : Nat) : SearchesWithin w steps := by
  induction steps with
  | zero => exact searchesWithin_zero
  | succ steps ih =>
    intro q s σ h
    cases h with
    | value => exact ih.value _ _ σ
    | imported => exact ih.imported _ _ σ

theorem finds_spread (v : Node) (m : Module) (σ : Session) :
    Finds w ⟨m, [v]⟩ σ ((spread w v m).run σ).1 ((spread w v m).run σ).2 :=
  searchesWithin mostSteps (.value (some v) m) _ σ .value

namespace Unbounded

variable {seen : List Identity} {member : Member} {members : List Member} {c : Command}

theorem addArgs_nil : addArgs w seen m [] c = pure c := by
  rw [Workspace.addArgs.eq_def]

theorem addArgs_spread (h : member.form = .spread) :
    addArgs w seen m (member :: members) c = (do
      let c ← match ← step (expansion w seen member.node m) with
        | some l => addArgs w (l.identity :: seen) l.owner l.object.members c
        | none =>
          step (warnAbout c ((Anomaly.spreadNotStatic member.node.text c.name).at_ m member.node))
      addArgs w seen m members c) := by
  obtain ⟨form, name, n⟩ := member
  obtain rfl : form = .spread := h
  exact Workspace.addArgs.eq_def ..

theorem addArgs_computed (h : member.form ≠ .spread) (hn : member.name = none) :
    addArgs w seen m (member :: members) c = (do
      let c ← step (warnAbout c ((Anomaly.computedArg c.name).at_ m member.node))
      addArgs w seen m members c) := by
  rw [Workspace.addArgs.eq_def]
  simp only [hn]

theorem addArgs_named {key : String} (h : member.form ≠ .spread) (hn : member.name = some key) :
    addArgs w seen m (member :: members) c =
      addArgs w seen m members (c.addArg (declaredArg m key member.node)) := by
  rw [Workspace.addArgs.eq_def]
  simp only [hn, pure_bind]

end Unbounded

end CommandCoverage
