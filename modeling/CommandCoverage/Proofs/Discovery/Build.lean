import CommandCoverage.Proofs.Discovery.Building

namespace CommandCoverage

open Script Analysis Scope

def namedEntries (members : List Member) : List (String × Node) :=
  members.filterMap fun m ↦ m.name.map (·, m.node)

/-- The subcommands that a definition registers, by key and value. -/
def Located.entries (d : Located) : List (String × Node) := namedEntries d.subcommands

/-- A value of a module resolved to a definition, or to none, between two sessions. -/
def Resolves (w : Workspace) (σ τ : Session) (m : Module) (v : Node)
    (r : Except Unresolved Located) : Prop :=
  ∃ σ' τ', Later w σ σ' ∧
    Unbounded.follow w false [] (.source (m.classify (some v)) m) σ' = some (r, τ') ∧
      Later w τ' τ

/-- The name, texts, place and arguments of a command were read off its definition between two
sessions. -/
def Declares (w : Workspace) (σ τ : Session) (name : String) (d : Located) (own : Command) : Prop :=
  ∃ σ' τ', Later w σ σ' ∧
    Unbounded.addDeclaredArgs w d (heading name d) σ' = some (own, τ') ∧ Later w τ' τ

structure Command.Bare (c : Command) : Prop where
  flags : c.flags = []
  options : c.options = []
  positionals : c.positionals = []
  subcommands : c.subcommands = []

/-- An entry of subcommands with what its value resolved to and the command that it became. -/
structure Sprout where
  key : String
  value : Node
  result : Except Unresolved Located
  child : Command

def Sprout.entry (s : Sprout) : String × Node := (s.key, s.value)

def registerAll (sprouts : List Sprout) (cs : List Command) : List Command :=
  sprouts.foldl (fun cs s ↦ Command.putChild s.child cs) cs

/-- What becomes, below the definitions above, of an entry that resolved to a definition or to
none. -/
inductive Grown (w : Workspace) (σ τ : Session) :
    List Identity → String → Except Unresolved Located → Command → Prop
  | unresolved {above : List Identity} {key : String} {why : Unresolved} {c : Command}
      (hn : c.name = key) (hc : c.Bare) : Grown w σ τ above key (.error why) c
  /-- A definition from above becomes a leaf with one warning about the cycle. -/
  | cut {above : List Identity} {key : String} {l : Located} {c : Command} (h : l.identity ∈ above)
      (hn : c.name = key) (hc : c.Bare)
      (hw : c.warnings.countP (·.kind == "import_cycle") = 1) : Grown w σ τ above key (.ok l) c
  /-- Any other definition is expanded in full: each entry of its subcommands is registered. -/
  | expanded {above : List Identity} {key : String} {l : Located} {sprouts : List Sprout}
      (own : Command) (origin : Option String) (warnings : List Warning)
      (h : l.identity ∉ above) (hown : Declares w σ τ key l own)
      (hentries : sprouts.map Sprout.entry = l.entries)
      (hresolves : ∀ s ∈ sprouts, Resolves w σ τ l.owner s.value s.result)
      (hgrown : ∀ s ∈ sprouts, Grown w σ τ (l.identity :: above) s.key s.result s.child) :
      Grown w σ τ above key (.ok l)
        { own with
          subcommands := registerAll sprouts []
          importedFrom := origin
          warnings }

/-- A path down a tree with what its commands come from: what the last one resolved to, and the
definitions above it, the nearest first. -/
inductive Lineage (w : Workspace) (σ τ : Session) :
    List Identity → Except Unresolved Located → Command → List String →
      List Identity → Except Unresolved Located → Command → Prop
  | here {above : List Identity} {r : Except Unresolved Located} {c : Command} :
      Lineage w σ τ above r c [] above r c
  | child {above above' : List Identity} {l : Located} {r r' : Except Unresolved Located}
      {c x node : Command} {name key : String} {path : List String} {v : Node}
      (hx : c.child name = some x) (he : (key, v) ∈ l.entries)
      (hr : Resolves w σ τ l.owner v r)
      (h : Lineage w σ τ (l.identity :: above) r x path above' r' node) :
      Lineage w σ τ above (.ok l) c (name :: path) above' r' node

variable {w : Workspace} {σ σ' τ τ' υ : Session} {above : List Identity} {key : String}
  {r : Except Unresolved Located} {c x : Command} {m : Module} {member : Member}
  {members : List Member} {l : Located}

theorem Resolves.extend {v : Node} (h : Resolves w σ τ m v r) (hσ : Later w σ' σ)
    (hτ : Later w τ τ') : Resolves w σ' τ' m v r := by
  obtain ⟨σ₁, τ₁, h₁, he, h₂⟩ := h
  exact ⟨σ₁, τ₁, hσ.trans h₁, he, h₂.trans hτ⟩

theorem Declares.extend (h : Declares w σ τ key l c) (hσ : Later w σ' σ) (hτ : Later w τ τ') :
    Declares w σ' τ' key l c := by
  obtain ⟨σ₁, τ₁, h₁, he, h₂⟩ := h
  exact ⟨σ₁, τ₁, hσ.trans h₁, he, h₂.trans hτ⟩

namespace Grown

theorem extend (h : Grown w σ τ above key r c) (hσ : Later w σ' σ) (hτ : Later w τ τ') :
    Grown w σ' τ' above key r c := by
  induction h with
  | unresolved hn hc => exact .unresolved hn hc
  | cut h hn hc hw => exact .cut h hn hc hw
  | expanded own origin warnings h hown hentries hresolves _ ih =>
    exact .expanded own _ _ h (hown.extend hσ hτ) hentries
      (fun s hs ↦ (hresolves s hs).extend hσ hτ) ih

theorem note (h : Grown w σ τ above key r c) (origin : Option String) (ws : List Warning)
    (hw : ∀ x ∈ ws, x.kind ≠ "import_cycle") :
    Grown w σ τ above key r { c with importedFrom := origin, warnings := c.warnings ++ ws } := by
  have hzero : ws.countP (·.kind == "import_cycle") = 0 :=
    List.countP_eq_zero.2 fun x hx ↦ by simpa using hw x hx
  cases h with
  | unresolved hn hc => exact .unresolved hn ⟨hc.flags, hc.options, hc.positionals, hc.subcommands⟩
  | cut h hn hc hone =>
    refine .cut h hn ⟨hc.flags, hc.options, hc.positionals, hc.subcommands⟩ ?_
    rw [List.countP_append, hone, hzero]
  | expanded own _ _ h hown hentries hresolves hgrown =>
    exact .expanded own _ _ h hown hentries hresolves hgrown

end Grown

theorem mem_registerAll {sprouts : List Sprout} {cs : List Command}
    (h : x ∈ registerAll sprouts cs) : x ∈ cs ∨ ∃ s ∈ sprouts, s.child = x := by
  induction sprouts generalizing cs with
  | nil => exact .inl h
  | cons s sprouts ih =>
    rcases ih h with hx | ⟨s', hs, hx⟩
    · rcases mem_putChild hx with rfl | hx
      · exact .inr ⟨s, List.mem_cons_self, rfl⟩
      · exact .inl hx
    · exact .inr ⟨s', List.mem_cons_of_mem _ hs, hx⟩

theorem Grown.of_child {name : String} (h : Grown w σ τ above key r c)
    (hx : c.child name = some x) : ∃ (l : Located) (s : Sprout), r = .ok l ∧
      l.identity ∉ above ∧ s.entry ∈ l.entries ∧ Resolves w σ τ l.owner s.value s.result ∧
        Grown w σ τ (l.identity :: above) s.key s.result x := by
  have hmem := List.mem_of_find?_eq_some hx
  cases h with
  | unresolved _ hc => simp [hc.subcommands] at hmem
  | cut _ _ hc => simp [hc.subcommands] at hmem
  | @expanded _ _ l sprouts _ _ _ h _ hentries hresolves hgrown =>
    rcases mem_registerAll hmem with hm | ⟨s, hs, rfl⟩
    · cases hm
    · exact ⟨l, s, rfl, h, hentries ▸ List.mem_map_of_mem hs, hresolves s hs, hgrown s hs⟩

theorem Grown.exists_lineage {path : List String} {node : Command}
    (h : Grown w σ τ above key r c) (hd : above.Nodup) (hp : c.resolve path = some node) :
    ∃ above' key' r', Lineage w σ τ above r c path above' r' node ∧ above'.Nodup ∧
      Grown w σ τ above' key' r' node := by
  induction path generalizing c above key r with
  | nil =>
    obtain rfl := Option.some_inj.1 hp
    exact ⟨above, key, r, .here, hd, h⟩
  | cons name path ih =>
    obtain ⟨x, hx, hp⟩ := Option.bind_eq_some_iff.1 hp
    obtain ⟨l, s, rfl, hl, he, hr, hs⟩ := h.of_child hx
    obtain ⟨above', key', r', hlin, hd', h'⟩ := ih hs (List.nodup_cons.2 ⟨hl, hd⟩) hp
    exact ⟨above', key', r', .child hx he hr hlin, hd', h'⟩

/-- The members of an object literal were registered with a command that had some subcommands. -/
structure Registers (w : Workspace) (σ τ : Session) (above : List Identity) (m : Module)
    (members : List Member) (c c' : Command) (sprouts : List Sprout) : Prop where
  entries : sprouts.map Sprout.entry = namedEntries members
  resolves : ∀ s ∈ sprouts, Resolves w σ τ m s.value s.result
  grown : ∀ s ∈ sprouts, Grown w σ τ above s.key s.result s.child
  command : c' = { c with
    subcommands := registerAll sprouts c.subcommands, warnings := c'.warnings }

def Made (w : Workspace) (σ τ : Session) (above : List Identity) : Job → Command → Prop
  | .task (.definition name d), c => d.identity ∉ above → Grown w σ τ above name (.ok d) c
  | .task (.entries members m c), c' => ∃ sprouts, Registers w σ τ above m members c c' sprouts
  | .entry m n key, c => ∃ r, Resolves w σ τ m n r ∧ Grown w σ τ above key r c

/-- A command is registered as it is, up to the warning that the name was taken. -/
theorem Grown.register {child : Command} (h : Grown w σ τ above key r child) (n : Node)
    (name : String) (υ : Session) : ∃ x, Grown w σ τ above key r x ∧
      ((register m n name c child).run υ).1 = c.addSubcommand x := by
  rw [Analysis.register]
  split
  · refine ⟨_, h.note child.importedFrom [(Anomaly.registeredTwice name c.name).at_ m n] ?_, rfl⟩
    simp [Anomaly.at_, Anomaly.kind]
  · exact ⟨child, h, rfl⟩

theorem Grown.fromElsewhere (h : Grown w σ τ above key r c) (l : Located) (m : Module) :
    Grown w σ τ above key r (fromElsewhere l m c) := by
  rw [Analysis.fromElsewhere]
  split
  · exact h
  · simpa using h.note (some l.owner.path) [] (by simp)

namespace Registers

variable {c' : Command} {sprouts : List Sprout} {own : Command} {name : String}

theorem nil : Registers w σ τ above m [] c c [] :=
  ⟨rfl, nofun, nofun, by cases c; rfl⟩

theorem warned (ws : List Warning) :
    Registers w σ τ above m [] c { c with warnings := ws } [] :=
  ⟨rfl, nofun, nofun, rfl⟩

theorem unnamed {ws : List Warning} (h : member.name = none) (hl : Later w σ' σ)
    (hr : Registers w σ τ above m members { c with warnings := ws } c' sprouts) :
    Registers w σ' τ above m (member :: members) c c' sprouts where
  entries := by simpa [namedEntries, h] using hr.entries
  resolves s hs := (hr.resolves s hs).extend hl .refl
  grown s hs := (hr.grown s hs).extend hl .refl
  command := hr.command

theorem named (h : member.name = some key) (hl : Later w σ υ) (hl' : Later w υ τ)
    (hv : Resolves w σ υ m member.node r) (hx : Grown w σ υ above key r x)
    (hr : Registers w υ τ above m members (c.addSubcommand x) c' sprouts) :
    Registers w σ τ above m (member :: members) c c' (⟨key, member.node, r, x⟩ :: sprouts) where
  entries := by
    rw [List.map_cons, hr.entries]
    simp [namedEntries, h, Sprout.entry]
  resolves s hs := by
    rcases List.mem_cons.1 hs with rfl | hs
    · exact hv.extend .refl hl'
    · exact (hr.resolves s hs).extend hl .refl
  grown s hs := by
    rcases List.mem_cons.1 hs with rfl | hs
    · exact hx.extend .refl hl'
    · exact (hr.grown s hs).extend hl .refl
  command := hr.command

theorem expanded (hr : Registers w τ υ (l.identity :: above) l.owner l.subcommands own c sprouts)
    (hl : Later w σ τ) (h : l.identity ∉ above) (hown : Declares w σ υ key l own)
    (hs : own.subcommands = []) : Grown w σ υ above key (.ok l) c := by
  rw [hr.command, hs]
  exact .expanded own _ _ h hown hr.entries (fun s hs ↦ (hr.resolves s hs).extend hl .refl)
    fun s hs ↦ (hr.grown s hs).extend hl .refl

end Registers

theorem Located.subcommands_eq_nil {d : Located}
    (h : d.owner.object (d.object.get? "subCommands") = none) : d.subcommands = [] := by
  rw [subcommands, h]
  rfl

theorem Builds.made {j : Job} (h : Builds w above j σ c τ) : Made w σ τ above j c := by
  induction h with
  | @bare above name d as ws σ τ ha h =>
    have hown : Declares w σ τ name d ((heading name d).extended as ws) :=
      ⟨σ, τ, .refl, ha.eval _ rfl, .refl⟩
    have hd : d.subcommands = [] := Located.subcommands_eq_nil (by rw [h]; rfl)
    exact fun hc ↦ (hd ▸ Registers.nil).expanded ha.later hc hown (Command.extended_subcommands ..)
  | @notStatic above name d as ws value x σ τ ha h ho _ =>
    have hown : Declares w σ (τ.warned x) name d ((heading name d).extended as ws) :=
      ⟨σ, τ, .refl, ha.eval _ rfl, later_warned x τ⟩
    have hd : d.subcommands = [] := Located.subcommands_eq_nil (by rw [h, ho])
    exact fun hc ↦
      (hd ▸ Registers.warned _).expanded ha.later hc hown (Command.extended_subcommands ..)
  | @literal above name d as ws value subs c σ τ υ ha h ho hb ih =>
    have hown : Declares w σ υ name d ((heading name d).extended as ws) :=
      ⟨σ, τ, .refl, ha.eval _ rfl, hb.later⟩
    have hd : d.subcommands = subs.members := Located.subcommands_eq (by rw [h, ho])
    obtain ⟨sprouts, hr⟩ := ih
    exact fun hc ↦ (hd ▸ hr).expanded ha.later hc hown (Command.extended_subcommands ..)
  | nil => exact ⟨[], .nil⟩
  | unnamed hn _ _ ih =>
    obtain ⟨sprouts, hr⟩ := ih
    exact ⟨sprouts, hr.unnamed hn (later_warned _ _)⟩
  | @named above m member members key c c₁ c' child σ τ υ φ hn hb hreg hr ih ih' =>
    obtain ⟨r, hv, hg⟩ := ih
    obtain ⟨x, hx, hadd⟩ := hg.register (m := m) (c := c) member.node key τ
    have hstep := later_register (w := w) (m := m) (σ := τ) member.node key c child
    rw [hreg] at hadd hstep
    subst hadd
    obtain ⟨sprouts, hs⟩ := ih'
    exact ⟨_, hs.named hn (hb.later.trans hstep) hr.later (hv.extend .refl hstep)
      (hx.extend .refl hstep)⟩
  | @unresolved above m n key why x σ τ hf _ =>
    exact ⟨.error why, ⟨σ, τ, .refl, hf.eval, later_warned x τ⟩, .unresolved rfl ⟨rfl, rfl, rfl, rfl⟩⟩
  | @cyclic above m n key l x σ τ hf hc hx =>
    have hone : ((cyclicLeaf key l).warned x).warnings.countP (·.kind == "import_cycle") = 1 := by
      rw [hx]
      rfl
    exact ⟨.ok l, ⟨σ, τ, .refl, hf.eval, later_warned x τ⟩,
      .cut hc rfl ⟨rfl, rfl, rfl, rfl⟩ hone⟩
  | @resolved above m n key l c σ τ υ hf hc hb ih =>
    exact ⟨.ok l, ⟨σ, τ, .refl, hf.eval, hb.later⟩,
      ((ih hc).extend hf.later .refl).fromElsewhere l m⟩

theorem exists_build (w : Workspace) (above : List Identity) (t : Task) (σ : Session) :
    ∃ c τ, Unbounded.build w above t σ = some (c, τ) ∧ Later w σ τ ∧
      Made w σ τ above (.task t) c := by
  obtain ⟨c, τ, hb⟩ := exists_builds w above t σ
  exact ⟨c, τ, hb.eval, hb.later, hb.made⟩

/-- Building a definition ends. Down every path of the tree the definitions are pairwise distinct up
to the last one, which becomes a leaf if and only if it occurs above; every other definition is
expanded in full. -/
theorem build_cuts_repetitions (w : Workspace) (name : String) (d : Located) (σ : Session) :
    ∃ c τ, Unbounded.build w [] (.definition name d) σ = some (c, τ) ∧ Later w σ τ ∧
      Grown w σ τ [] name (.ok d) c ∧
      ∀ path node, c.resolve path = some node → ∃ above key r,
        Lineage w σ τ [] (.ok d) c path above r node ∧ above.Nodup ∧
          Grown w σ τ above key r node := by
  obtain ⟨c, τ, he, hl, hm⟩ := exists_build w [] (.definition name d) σ
  have hg : Grown w σ τ [] name (.ok d) c := hm List.not_mem_nil
  exact ⟨c, τ, he, hl, hg, fun path node hp ↦ hg.exists_lineage List.nodup_nil hp⟩

end CommandCoverage
