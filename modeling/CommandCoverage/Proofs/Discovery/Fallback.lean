import CommandCoverage.Proofs.Discovery.Choice
import CommandCoverage.Proofs.Discovery.Flattening
import CommandCoverage.Proofs.Discovery.Resolution

namespace CommandCoverage

open Script Analysis Node

/-- A definition registers another one of its module as a subcommand: a member of its subcommands
leads there. -/
def RegistersDefinition (w : Workspace) (m : Module) (σ : Session) (d e : Node) : Prop :=
  ∃ subs, m.object (d.get? "subCommands") = some subs ∧
    ∃ s ∈ subs.members, s.form ≠ .spread ∧
      ∃ l τ, Follows w false [] (.source (m.classify (some s.node)) m) σ (.ok l) τ ∧
        l.identity = ⟨m.path, e.start⟩

def Unregistered (w : Workspace) (m : Module) (σ : Session) (d : Node) : Prop :=
  ∀ e ∈ writtenDefinitions m, e ≠ d → ¬RegistersDefinition w m σ e d

/-- Another definition registers this one, but it is nested or does so in a way that is not looked
at. -/
def Overlooked (w : Workspace) (m : Module) (σ : Session) (d : Node) : Prop :=
  ∃ e ∈ writtenDefinitions m, e ≠ d ∧ RegistersDefinition w m σ e d ∧
    ¬(e ∈ m.outermost ∧ RegistersAt w m e d.start)

variable {w : Workspace} {m : Module} {σ τ : Session} {passed : List Passed} {s : Source}
  {l : Located} {d e r : Node}

theorem mem_writtenDefinitions (h : d ∈ m.outermost) : d ∈ writtenDefinitions m :=
  List.mem_of_mem_filter h

/-- What is found within a module is found without that limit, too, and it is in the module. -/
theorem Follows.of_within (h : Follows w true passed (.source s m) σ (.ok l) τ) :
    Follows w false passed (.source s m) σ (.ok l) τ ∧ l.owner = m := by
  generalize ht : true = localOnly, hq : Query.source s m = q,
    hr : (Except.ok l : Except Unresolved Located) = r at h
  -- A source leads to sources only as long as no other module counts.
  induction h generalizing s with
  | answer h =>
    cases h with
    | definition h =>
      cases hq
      cases hr
      exact ⟨.answer (.definition h), rfl⟩
    | _ => cases hr
  | move h hf ih =>
    cases h with
    | ofImport h =>
      cases hq
      obtain ⟨hwide, howner⟩ := ih rfl hr
      exact ⟨.move (.ofImport h) hwide, howner⟩
    | _ => cases hq
  | binding h hp _ ih =>
    cases hq
    obtain ⟨hwide, howner⟩ := ih rfl hr
    exact ⟨.binding h hp hwide, howner⟩
  | unloadable => cases hr
  | imported h => exact absurd (ht.trans h.allowed) (by decide)
  | star => cases hq
  | nextStar => cases hq

theorem RegistersAt.registersDefinition (h : RegistersAt w m d e.start) :
    RegistersDefinition w m σ d e := by
  obtain ⟨subs, hsubs, s, hs, hform, l, hl, hstart⟩ := h
  obtain ⟨hwide, rfl⟩ := (hl σ).of_within
  refine ⟨subs, hsubs, s, hs, ?_, l, σ, hwide, congrArg (Identity.mk _) hstart⟩
  rcases hform with hform | hform <;> simp [hform]

theorem Unregistered.free (h : Unregistered w m σ d) (hd : d ∈ m.outermost)
    (hself : ¬RegistersAt w m d d.start) : Free w m d := by
  refine ⟨hd, fun e he hr ↦ ?_⟩
  by_cases hed : e = d
  · exact hself (hed ▸ hr)
  · exact h e (mem_writtenDefinitions he) hed hr.registersDefinition

theorem FallsBack.free_of_exists (h : FallsBack w m r) (hd : Free w m d) : Free w m r := by
  cases h with
  | free _ hr => exact hr
  | first _ hn => exact absurd hd (hn d hd.outermost)

/-- In a module with an outermost definition that no other one registers, an outermost one is fallen
back on. It is registered by no other one if and only if no registration of it is overlooked and, in
case all that are registered by no other one register themselves, the first outermost one is good
enough. -/
theorem findRoot_unregistered_iff (h : Tries w m.candidates σ none τ)
    (hd : ∃ d ∈ m.outermost, Unregistered w m τ d) :
    ∃ r, (findRoot w m).run σ = (some ⟨r, m⟩, τ) ∧ r ∈ m.outermost ∧
      (Unregistered w m τ r ↔ ¬Overlooked w m τ r ∧
        ((∃ d ∈ m.outermost, Unregistered w m τ d ∧ ¬RegistersAt w m d d.start) ∨
          ∀ e ∈ m.outermost, e ≠ r → ¬RegistersAt w m e r.start)) := by
  obtain ⟨d, hd, -⟩ := hd
  obtain ⟨root, υ, hchooses, hrun⟩ := exists_chooses w m σ
  cases hchooses with
  | candidate h' => cases (h.unique h').1
  | nothing _ hw =>
    rw [outermost_eq_nil_iff.2 hw] at hd
    cases hd
  | @written r _ h' hr =>
    obtain rfl := (h.unique h').2
    refine ⟨r, hrun, hr.mem, fun hun ↦ ⟨?_, .inr fun e he hne hreg ↦ ?_⟩, ?_⟩
    · rintro ⟨e, he, hne, hreg, -⟩
      exact hun e he hne hreg
    · exact hun e (mem_writtenDefinitions he) hne hreg.registersDefinition
    · rintro ⟨hseen, hlast⟩ e he hne hreg
      -- A registration that is not overlooked would have kept the definition from being free.
      by_cases hread : e ∈ m.outermost ∧ RegistersAt w m e r.start
      · rcases hlast with ⟨d, hd, hun, hself⟩ | hlast
        · exact (hr.free_of_exists (hun.free hd hself)).unregistered e hread.1 hread.2
        · exact hlast e hread.1 hne hread.2
      · exact hseen ⟨e, he, hne, hreg, hread⟩

/-- A module with a definition that only a nested definition registers, before the definition around
that one. -/
def nesting : Module :=
  .ofRoot "cli.ts" { kind := .program, children := [declared "leaf" leaf, declared "cli" cli] }
where
  leaf : Node := { objectAt 1 [entryOf "run" (objectAt 2 [])] with stop := 3 }
  cli : Node := { objectAt 4 [entryOf "subCommands" middle] with stop := 9 }
  middle : Node := objectAt 5 [entryOf "mid" (made mid)]
  mid : Node := { objectAt 6 [entryOf "subCommands" leaves] with stop := 8 }
  leaves : Node := objectAt 7 [{ kind := .shorthand, text := "leaf" }]
  made (d : Node) : Node :=
    { kind := .call
      children := [
        { kind := .identifier, role := some .callee, text := "defineCommand" },
        { kind := .arguments, role := some .arguments, children := [d] }] }
  declared (name : String) (d : Node) : Node :=
    { kind := .lexicalDeclaration
      children := [
        { kind := .declarator
          children := [
            { kind := .identifier, role := some .name, text := name },
            { made d with role := some .value }] }] }

section nested

theorem calls_nesting : Analysis.calls nesting = [(nesting.made nesting.leaf).inRole .value,
    (nesting.made nesting.cli).inRole .value, (nesting.made nesting.mid).inRole .value] := by
  have hroot : nesting.root = { kind := .program, children := [
      nesting.declared "leaf" nesting.leaf, nesting.declared "cli" nesting.cli] } := rfl
  rw [Analysis.calls, hroot]
  cbv

theorem writtenDefinitions_nesting :
    writtenDefinitions nesting = [nesting.leaf, nesting.cli, nesting.mid] := by
  rw [writtenDefinitions, calls_nesting]
  rfl

theorem outermost_nesting : nesting.outermost = [nesting.leaf, nesting.cli] := by
  rw [Module.outermost, writtenDefinitions_nesting]
  rfl

theorem candidates_nesting : nesting.candidates = [] := by
  rw [Module.candidates, calls_nesting]
  rfl

theorem leads_nesting (w : Workspace) (σ : Session) :
    Follows w false [] (.source (.bound "leaf") nesting) σ (.ok ⟨nesting.leaf, nesting⟩) σ := by
  have hbinds : Binds nesting "leaf" { nesting.made nesting.leaf with role := some .value } :=
    ⟨rfl, rfl⟩
  exact .binding hbinds List.not_mem_nil (.answer (.definition rfl))

/-- The outer definition registers the nested one and that the first one, and that is all. -/
theorem registersDefinition_nesting (hd : d ∈ writtenDefinitions nesting)
    (h : RegistersDefinition w nesting σ d e) :
    (d = nesting.cli ∧ nesting.mid.start = e.start) ∨
      (d = nesting.mid ∧ nesting.leaf.start = e.start) := by
  obtain ⟨subs, hsubs, s, hs, -, l, τ, hl, hplace⟩ := h
  have hplace' : l.object.start = e.start := congrArg Identity.start hplace
  rw [writtenDefinitions_nesting] at hd
  simp only [List.mem_cons, List.not_mem_nil, or_false] at hd
  rcases hd with rfl | rfl | rfl
  · have hnone : nesting.object (nesting.leaf.get? "subCommands") = none := by rfl
    rw [hnone] at hsubs
    cases hsubs
  · have hsome : nesting.object (nesting.cli.get? "subCommands") =
        some { nesting.middle with role := some .value } := by rfl
    obtain rfl := Option.some_inj.1 (hsome.symm.trans hsubs)
    obtain rfl := List.mem_singleton.1 hs
    have hmid : Follows w false [] (.source (.inline nesting.mid) nesting) σ
        (.ok ⟨nesting.mid, nesting⟩) σ := .answer (.definition rfl)
    cases Option.some_inj.1 (hmid.eval.symm.trans hl.eval)
    exact .inl ⟨rfl, hplace'⟩
  · have hsome : nesting.object (nesting.mid.get? "subCommands") =
        some { nesting.leaves with role := some .value } := by rfl
    obtain rfl := Option.some_inj.1 (hsome.symm.trans hsubs)
    obtain rfl := List.mem_singleton.1 hs
    cases Option.some_inj.1 ((leads_nesting w σ).eval.symm.trans hl.eval)
    exact .inr ⟨rfl, hplace'⟩

theorem unregistered_nesting (w : Workspace) (σ : Session) :
    Unregistered w nesting σ nesting.cli := by
  intro e he _ h
  rcases registersDefinition_nesting he h with ⟨-, hplace⟩ | ⟨-, hplace⟩
  · exact absurd hplace (by decide)
  · exact absurd hplace (by decide)

theorem nested_registers_nesting (w : Workspace) (σ : Session) :
    RegistersDefinition w nesting σ nesting.mid nesting.leaf :=
  ⟨{ nesting.leaves with role := some .value }, rfl, _, List.mem_singleton_self _, by decide, _, σ,
    leads_nesting w σ, rfl⟩

theorem fallsBack_nesting (w : Workspace) : FallsBack w nesting nesting.leaf := by
  have houter : nesting.outermost = [] ++ nesting.leaf :: [nesting.cli] := outermost_nesting
  refine .free houter ⟨outermost_nesting ▸ List.mem_cons_self, fun e he hr ↦ ?_⟩ nofun
  have hwritten := mem_writtenDefinitions he
  have hregisters : RegistersDefinition w nesting (afterReading w nesting) e nesting.leaf :=
    hr.registersDefinition
  rcases registersDefinition_nesting hwritten hregisters with ⟨-, hplace⟩ | ⟨rfl, -⟩
  · exact absurd hplace (by decide)
  · rw [outermost_nesting] at he
    have hplace : nesting.mid.start ∈ [nesting.leaf.start, nesting.cli.start] :=
      List.mem_map_of_mem he
    exact absurd hplace (by decide)

/-- There is a definition that no other registers, and one that is registered is chosen. -/
theorem exists_root_registered : ∃ (w : Workspace) (m : Module) (σ τ : Session) (r : Node),
    Tries w m.candidates σ none τ ∧ (∃ d ∈ m.outermost, Unregistered w m τ d) ∧
      (findRoot w m).run σ = (some ⟨r, m⟩, τ) ∧ ¬Unregistered w m τ r := by
  let w : Workspace := { files := {}, maxFileSize := 0 }
  let σ := afterReading w nesting
  have htries : Tries w nesting.candidates σ none σ := candidates_nesting ▸ .none
  have hcli : nesting.cli ∈ nesting.outermost := by simp [outermost_nesting]
  have hmid : nesting.mid ∈ writtenDefinitions nesting := by simp [writtenDefinitions_nesting]
  obtain ⟨root, τ, hchooses, hrun⟩ := exists_chooses w nesting σ
  obtain ⟨rfl, rfl⟩ := hchooses.unique (.written htries (fallsBack_nesting w))
  have hne : nesting.mid ≠ nesting.leaf := fun he ↦ absurd (congrArg Node.start he) (by decide)
  exact ⟨w, nesting, σ, σ, nesting.leaf, htries, ⟨_, hcli, unregistered_nesting w σ⟩, hrun,
    fun h ↦ h nesting.mid hmid hne (nested_registers_nesting w σ)⟩

theorem findRoot_unregistered_iff_nesting :
    let w : Workspace := { files := {}, maxFileSize := 0 }
    let σ := afterReading w nesting
    Tries w nesting.candidates σ none σ ∧ (∃ d ∈ nesting.outermost, Unregistered w nesting σ d) ∧
      ∃ r, (findRoot w nesting).run σ = (some ⟨r, nesting⟩, σ) ∧ r ∈ nesting.outermost ∧
        (Unregistered w nesting σ r ↔ ¬Overlooked w nesting σ r ∧
          ((∃ d ∈ nesting.outermost, Unregistered w nesting σ d ∧
              ¬RegistersAt w nesting d d.start) ∨
            ∀ e ∈ nesting.outermost, e ≠ r → ¬RegistersAt w nesting e r.start)) := by
  intro w σ
  have htries : Tries w nesting.candidates σ none σ := candidates_nesting ▸ .none
  have hcli : nesting.cli ∈ nesting.outermost := by simp [outermost_nesting]
  have hd : ∃ d ∈ nesting.outermost, Unregistered w nesting σ d :=
    ⟨_, hcli, unregistered_nesting w σ⟩
  exact ⟨htries, hd, findRoot_unregistered_iff htries hd⟩

end nested

end CommandCoverage
