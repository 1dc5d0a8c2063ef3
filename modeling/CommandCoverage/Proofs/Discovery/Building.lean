import CommandCoverage.Proofs.Discovery.Flattening

namespace CommandCoverage

open Script Analysis Scope Command

/-- The members of the object literal that gives the subcommands of a definition. -/
def Located.subcommands (d : Located) : List Member :=
  ((d.owner.object (d.object.get? "subCommands")).map Node.members).getD []

/-- What is built: the command that a task makes, or the one for an entry of subcommands. -/
inductive Job where
  | task (t : Task)
  | entry (m : Module) (n : Node) (key : String)

variable {w : Workspace} {σ τ υ φ : Session} {above : List Identity} {key name : String}
  {c child : Command} {m : Module} {n : Node} {member : Member} {members : List Member}
  {l d : Located} {j : Job}

namespace Unbounded

def subcommand (w : Workspace) (above : List Identity) (m : Module) (n : Node) (key : String) :
    Unbounded Command := do
  match ← follow w false [] (.source (m.classify (some n)) m) with
  | .error why =>
    step (warnAbout (unresolvedLeaf key m n) ((Anomaly.unresolvedSubcommand key why).at_ m n))
  | .ok l =>
    if above.contains l.identity then
      step (warnAbout (cyclicLeaf key l) ((Anomaly.selfContaining key).at_ m n))
    else fromElsewhere l m <$> build w above (.definition key l)

theorem build_definition (name : String) (d : Located) :
    build w above (.definition name d) = (do
      let c ← addDeclaredArgs w d (heading name d)
      match d.object.get? "subCommands" with
      | none => return c
      | some value =>
        match d.owner.object (some value) with
        | none => step (warnAbout c ((Anomaly.subcommandsNotStatic c.name).at_ d.owner value))
        | some subs => build w (d.identity :: above) (.entries subs.members d.owner c)) :=
  Workspace.build.eq_def ..

theorem build_nil : build w above (.entries [] m c) = pure c := by
  rw [Workspace.build.eq_def]

theorem build_unnamed (h : member.name = none) :
    build w above (.entries (member :: members) m c) = (do
      let c ← step (warnAbout c ((Anomaly.subcommandNotStatic c.name).at_ m member.node))
      build w above (.entries members m c)) := by
  rw [Workspace.build.eq_def]
  simp only [h]

theorem build_named (h : member.name = some key) :
    build w above (.entries (member :: members) m c) = (do
      let child ← subcommand w above m member.node key
      let c ← step (register m member.node key c child)
      build w above (.entries members m c)) := by
  rw [Workspace.build.eq_def, subcommand]
  simp only [h, bind_assoc]
  refine bind_congr fun r ↦ ?_
  cases r with
  | error => rfl
  | ok l =>
    dsimp only
    split <;> rfl

end Unbounded

def Job.run (w : Workspace) (above : List Identity) : Job → Unbounded Command
  | .task t => Unbounded.build w above t
  | .entry m n key => Unbounded.subcommand w above m n key

def Job.Names : Job → Command → Prop
  | .task (.definition name d), c => c.name = (heading name d).name
  | .task (.entries _ _ own), c => c.name = own.name
  | .entry _ _ key, c => key ≠ "" → c.name = key

/-- Building below some definitions, from a session to another one. -/
inductive Builds (w : Workspace) : List Identity → Job → Session → Command → Session → Prop
  | bare {above : List Identity} {name : String} {d : Located} {as : List Arg} {ws : List Warning}
      {σ τ : Session} (ha : ReadsArgs w (heading name d).name d σ as ws τ)
      (h : d.object.get? "subCommands" = none) :
      Builds w above (.task (.definition name d)) σ ((heading name d).extended as ws) τ
  | notStatic {above : List Identity} {name : String} {d : Located} {as : List Arg}
      {ws : List Warning} {value : Node} {x : Warning} {σ τ : Session}
      (ha : ReadsArgs w (heading name d).name d σ as ws τ)
      (h : d.object.get? "subCommands" = some value) (ho : d.owner.object (some value) = none)
      (hx : x = (Anomaly.subcommandsNotStatic (heading name d).name).at_ d.owner value) :
      Builds w above (.task (.definition name d)) σ (((heading name d).extended as ws).warned x)
        (τ.warned x)
  | literal {above : List Identity} {name : String} {d : Located} {as : List Arg}
      {ws : List Warning} {value subs : Node} {c : Command} {σ τ υ : Session}
      (ha : ReadsArgs w (heading name d).name d σ as ws τ)
      (h : d.object.get? "subCommands" = some value) (ho : d.owner.object (some value) = some subs)
      (hb : Builds w (d.identity :: above)
        (.task (.entries subs.members d.owner ((heading name d).extended as ws))) τ c υ) :
      Builds w above (.task (.definition name d)) σ c υ
  | nil {above : List Identity} {m : Module} {c : Command} {σ : Session} :
      Builds w above (.task (.entries [] m c)) σ c σ
  | unnamed {above : List Identity} {m : Module} {member : Member} {members : List Member}
      {x : Warning} {c c' : Command} {σ τ : Session} (hn : member.name = none)
      (hx : x = (Anomaly.subcommandNotStatic c.name).at_ m member.node)
      (hr : Builds w above (.task (.entries members m (c.warned x))) (σ.warned x) c' τ) :
      Builds w above (.task (.entries (member :: members) m c)) σ c' τ
  | named {above : List Identity} {m : Module} {member : Member} {members : List Member}
      {key : String} {c c₁ c' child : Command} {σ τ υ φ : Session} (hn : member.name = some key)
      (hb : Builds w above (.entry m member.node key) σ child τ)
      (hreg : (register m member.node key c child).run τ = (c₁, υ))
      (hr : Builds w above (.task (.entries members m c₁)) υ c' φ) :
      Builds w above (.task (.entries (member :: members) m c)) σ c' φ
  | unresolved {above : List Identity} {m : Module} {n : Node} {key : String} {why : Unresolved}
      {x : Warning} {σ τ : Session}
      (hf : Follows w false [] (.source (m.classify (some n)) m) σ (.error why) τ)
      (hx : x = (Anomaly.unresolvedSubcommand key why).at_ m n) :
      Builds w above (.entry m n key) σ ((unresolvedLeaf key m n).warned x) (τ.warned x)
  | cyclic {above : List Identity} {m : Module} {n : Node} {key : String} {l : Located}
      {x : Warning} {σ τ : Session}
      (hf : Follows w false [] (.source (m.classify (some n)) m) σ (.ok l) τ)
      (hc : l.identity ∈ above) (hx : x = (Anomaly.selfContaining key).at_ m n) :
      Builds w above (.entry m n key) σ ((cyclicLeaf key l).warned x) (τ.warned x)
  | resolved {above : List Identity} {m : Module} {n : Node} {key : String} {l : Located}
      {c : Command} {σ τ υ : Session}
      (hf : Follows w false [] (.source (m.classify (some n)) m) σ (.ok l) τ)
      (hc : l.identity ∉ above) (hb : Builds w above (.task (.definition key l)) τ c υ) :
      Builds w above (.entry m n key) σ (fromElsewhere l m c) υ

theorem register_run (m : Module) (n : Node) (key : String) (c child : Command) (σ : Session) :
    (register m n key c child).run σ =
      if (c.child child.name).isSome then
        (c.addSubcommand (child.warned ((Anomaly.registeredTwice key c.name).at_ m n)),
          σ.warned ((Anomaly.registeredTwice key c.name).at_ m n))
      else (c.addSubcommand child, σ) := by
  rw [register]
  split <;> rfl

theorem later_register (n : Node) (key : String) (c child : Command) :
    Later w σ ((register m n key c child).run σ).2 := by
  rw [register_run]
  split
  · exact later_warned _ σ
  · exact .refl

namespace Builds

theorem later (h : Builds w above j σ c τ) : Later w σ τ := by
  induction h with
  | bare ha => exact ha.later
  | notStatic ha => exact ha.later.trans (later_warned _ _)
  | literal ha _ _ _ ih => exact ha.later.trans ih
  | nil => exact .refl
  | unnamed _ _ _ ih => exact (later_warned _ _).trans ih
  | @named _ m member _ key c _ _ child _ τ _ _ _ _ hreg _ ih ih' =>
    have hstep := later_register (w := w) (m := m) (σ := τ) member.node key c child
    rw [hreg] at hstep
    exact ih.trans (hstep.trans ih')
  | unresolved hf => exact hf.later.trans (later_warned _ _)
  | cyclic hf => exact hf.later.trans (later_warned _ _)
  | resolved hf _ _ ih => exact hf.later.trans ih

theorem eval (h : Builds w above j σ c τ) : j.run w above σ = some (c, τ) := by
  induction h with
  | bare ha h =>
    rw [Job.run, Unbounded.build_definition, Unbounded.bind_apply, ha.eval _ rfl, h]
    rfl
  | notStatic ha h ho hx =>
    rw [Job.run, Unbounded.build_definition, Unbounded.bind_apply, ha.eval _ rfl]
    simp only [h, ho, Option.bind_some, Unbounded.step_apply, warnAbout_run]
    rw [extended_name, ← hx]
  | literal ha h ho _ ih =>
    rw [Job.run, Unbounded.build_definition, Unbounded.bind_apply, ha.eval _ rfl]
    simp only [h, ho, Option.bind_some]
    exact ih
  | nil =>
    rw [Job.run, Unbounded.build_nil]
    rfl
  | unnamed hn hx _ ih =>
    rw [Job.run, Unbounded.build_unnamed hn, Unbounded.bind_apply, Unbounded.step_apply,
      warnAbout_run, ← hx]
    exact ih
  | named hn _ hreg _ ih ih' =>
    rw [Job.run] at ih
    rw [Job.run, Unbounded.build_named hn, Unbounded.bind_apply, ih, Option.bind_some,
      Unbounded.bind_apply, Unbounded.step_apply, hreg]
    exact ih'
  | unresolved hf hx =>
    rw [Job.run, Unbounded.subcommand, Unbounded.bind_apply, hf.eval, Option.bind_some]
    dsimp only
    rw [Unbounded.step_apply, warnAbout_run, ← hx]
  | cyclic hf hc hx =>
    rw [Job.run, Unbounded.subcommand, Unbounded.bind_apply, hf.eval, Option.bind_some]
    simp only [List.contains_iff_mem, hc, if_true]
    rw [Unbounded.step_apply, warnAbout_run, ← hx]
  | resolved hf hc _ ih =>
    rw [Job.run] at ih
    rw [Job.run, Unbounded.subcommand, Unbounded.bind_apply, hf.eval, Option.bind_some]
    simp only [List.contains_iff_mem, hc, if_false]
    rw [Unbounded.map_apply, ih, Option.map_some]

theorem warnings (h : Builds w above j σ c τ) : σ.warnings <+: τ.warnings := by
  have hargs {d : Located} {command : String} {as : List Arg} {ws : List Warning} {σ τ : Session}
      (h : ReadsArgs w command d σ as ws τ) : σ.warnings <+: τ.warnings :=
    h.warnings ▸ List.prefix_append ..
  have hwarned (σ : Session) (x : Warning) : σ.warnings <+: (σ.warned x).warnings :=
    List.prefix_append ..
  induction h with
  | bare ha => exact hargs ha
  | notStatic ha => exact (hargs ha).trans (hwarned _ _)
  | literal ha _ _ _ ih => exact (hargs ha).trans ih
  | nil => exact List.prefix_rfl
  | unnamed _ _ _ ih => exact (hwarned _ _).trans ih
  | @named _ m member _ key c _ _ child _ τ υ _ _ _ hreg _ ih ih' =>
    have hstep : τ.warnings <+: υ.warnings := by
      rw [register_run] at hreg
      split at hreg
      · obtain ⟨-, rfl⟩ := Prod.mk.inj hreg
        exact hwarned _ _
      · obtain ⟨-, rfl⟩ := Prod.mk.inj hreg
        exact List.prefix_rfl
    exact ih.trans (hstep.trans ih')
  | unresolved hf => exact hf.warnings ▸ hwarned _ _
  | cyclic hf => exact hf.warnings ▸ hwarned _ _
  | resolved hf _ _ ih => exact hf.warnings ▸ ih

/-- A command has the name that its job says, an entry that of its key. -/
theorem names (h : Builds w above j σ c τ) : j.Names c := by
  induction h with
  | bare => exact extended_name ..
  | notStatic => exact extended_name ..
  | literal _ _ _ _ ih => exact Eq.trans ih (extended_name ..)
  | nil => rfl
  | unnamed _ _ _ ih => exact ih
  | named _ _ hreg _ _ ih' =>
    refine Eq.trans ih' ?_
    rw [register_run] at hreg
    split at hreg
    · obtain ⟨rfl, -⟩ := Prod.mk.inj hreg
      rfl
    · obtain ⟨rfl, -⟩ := Prod.mk.inj hreg
      rfl
  | unresolved => exact fun _ ↦ rfl
  | cyclic => exact fun _ ↦ rfl
  | @resolved _ m _ key l c _ _ _ _ _ _ ih =>
    intro hkey
    have hheading : (heading key l).name = key := by simp [heading, hkey]
    have hname : (fromElsewhere l m c).name = c.name := by
      rw [fromElsewhere]
      split <;> rfl
    exact hname.trans (Eq.trans ih hheading)

end Builds

namespace Task

def cut (above : List Identity) : Task → List Identity
  | .definition _ d => d.identity :: above
  | .entries .. => above

def scope : Task → Scope
  | .definition _ d => d.scope
  | .entries members m _ => ofMembers m members

def rank : Task → Nat
  | .definition _ d => d.subcommands.length + 1
  | .entries members .. => members.length

end Task

theorem Located.subcommands_eq {subs : Node}
    (h : d.owner.object (d.object.get? "subCommands") = some subs) :
    d.subcommands = subs.members := by
  rw [subcommands, h]
  rfl

theorem Located.inside_subcommands {t : Table Module} {subs value : Node}
    (hv : d.object.get? "subCommands" = some value) (h : d.owner.object (some value) = some subs) :
    (ofMembers d.owner subs.members).Inside t d.scope := by
  have hvalue : (Scope.mk d.owner [value]).Inside t d.scope := by
    refine ⟨.inr rfl, fun x hx ↦ ?_⟩
    obtain rfl := List.mem_singleton.1 hx
    exact .below rfl List.mem_cons_self (Node.mem_walk_of_get? hv)
  exact (inside_members d.owner subs).trans ((inside_object h).trans hvalue)

/-- If every definition that is not above can be built, then so can the command of an entry. -/
theorem exists_builds_entry (w : Workspace) (above : List Identity) (m : Module) (n : Node)
    (key : String) (σ : Session)
    (hbuild : ∀ l τ, Later w σ τ → l.scope.Inside τ.modules ⟨m, [n]⟩ → l.identity ∉ above →
      ∃ c υ, Builds w above (.task (.definition key l)) τ c υ) :
    ∃ c τ, Builds w above (.entry m n key) σ c τ := by
  obtain ⟨r, τ, hf⟩ := exists_follows w false [] (.source (m.classify (some n)) m) σ
  cases r with
  | error why => exact ⟨_, _, .unresolved hf rfl⟩
  | ok l =>
    by_cases hc : l.identity ∈ above
    · exact ⟨_, _, .cyclic hf hc rfl⟩
    · obtain ⟨c, υ, hb⟩ := hbuild l τ hf.later hf.inside hc
      exact ⟨_, _, .resolved hf hc hb⟩

theorem exists_builds (w : Workspace) (above : List Identity) (t : Task) (σ : Session) :
    ∃ c τ, Builds w above (.task t) σ c τ := by
  match t with
  | .definition name d =>
    obtain ⟨as, ws, τ, ha⟩ := exists_readsArgs w (heading name d).name d σ
    cases hv : d.object.get? "subCommands" with
    | none => exact ⟨_, _, .bare ha hv⟩
    | some value =>
      cases ho : d.owner.object (some value) with
      | none => exact ⟨_, _, .notStatic ha hv ho rfl⟩
      | some subs =>
        have hd : d.subcommands = subs.members := Located.subcommands_eq (by rw [hv, ho])
        obtain ⟨c, υ, hb⟩ := exists_builds w (d.identity :: above)
          (.entries subs.members d.owner ((heading name d).extended as ws)) τ
        exact ⟨_, _, .literal ha hv ho hb⟩
  | .entries [] m c => exact ⟨_, _, .nil⟩
  | .entries (member :: members) m c =>
    cases hn : member.name with
    | none =>
      obtain ⟨c', τ, hr⟩ := exists_builds w above (.entries members m (c.warned _)) (σ.warned _)
      exact ⟨_, _, .unnamed hn rfl hr⟩
    | some key =>
      -- A definition below counts as cut before it is built, so that its task weighs less.
      obtain ⟨child, τ, hb⟩ := exists_builds_entry w above m member.node key σ
        fun l τ hl hi hc ↦ exists_builds w above (.definition key l) τ
      have hreg := later_register (w := w) (m := m) (σ := τ) member.node key c child
      obtain ⟨c', υ, hr⟩ := exists_builds w above
        (.entries members m ((register m member.node key c child).run τ).1)
        ((register m member.node key c child).run τ).2
      exact ⟨_, _, .named hn hb rfl hr⟩
termination_by (unread w σ, uncut σ.modules (t.cut above) t.scope, t.rank)
decreasing_by
  · exact lighter_of_rank ha.later (Located.inside_subcommands hv ho) (by simp [Task.rank, hd])
  · exact lighter_of_rank (later_warned _ _) (inside_tail ..) (Nat.lt_succ_self _)
  · have hinside := hi.trans (inside_head m member members)
    exact lighter_of_cut hl hinside hinside.identity_mem hc
  · exact lighter_of_rank (hb.later.trans hreg) (inside_tail ..) (Nat.lt_succ_self _)

end CommandCoverage
