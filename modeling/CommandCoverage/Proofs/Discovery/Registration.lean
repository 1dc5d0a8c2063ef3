import CommandCoverage.Proofs.Discovery.Building

namespace CommandCoverage

open Script Analysis Command

/-- What a member of the subcommands came to: the command that it registers, if any, and the
warnings given on the way. -/
structure Registration where
  member : Member
  command : Option Command
  warnings : List Warning

/-- The members of an object literal were registered, one after the other, between two sessions.
`earlier` are the keys that are taken. -/
inductive Registered (w : Workspace) (above : List Identity) (m : Module) (command : String) :
    List String → Session → List Registration → Session → Prop
  | nil {earlier : List String} {σ : Session} : Registered w above m command earlier σ [] σ
  | unnamed {earlier : List String} {member : Member} {x : Warning} {rs : List Registration}
      {σ τ : Session} (hn : member.name = none)
      (hx : x = (Anomaly.subcommandNotStatic command).at_ m member.node)
      (hr : Registered w above m command earlier (σ.warned x) rs τ) :
      Registered w above m command earlier σ (⟨member, none, [x]⟩ :: rs) τ
  | first {earlier : List String} {member : Member} {key : String} {child : Command}
      {ws : List Warning} {rs : List Registration} {σ τ υ : Session} (hn : member.name = some key)
      (hk : key ∉ earlier)
      (hb : Unbounded.subcommand w above m member.node key σ = some (child, τ))
      (hc : child.name = key) (hw : τ.warnings = σ.warnings ++ ws)
      (hr : Registered w above m command (key :: earlier) τ rs υ) :
      Registered w above m command earlier σ (⟨member, some child, ws⟩ :: rs) υ
  | again {earlier : List String} {member : Member} {key : String} {child : Command}
      {x : Warning} {ws : List Warning} {rs : List Registration} {σ τ υ : Session}
      (hn : member.name = some key) (hk : key ∈ earlier)
      (hb : Unbounded.subcommand w above m member.node key σ = some (child, τ))
      (hc : child.name = key) (hw : τ.warnings = σ.warnings ++ ws)
      (hx : x = (Anomaly.registeredTwice key command).at_ m member.node)
      (hr : Registered w above m command (key :: earlier) (τ.warned x) rs υ) :
      Registered w above m command earlier σ (⟨member, some (child.warned x), ws ++ [x]⟩ :: rs) υ

/-- A key was registered with the command that its value gives in some session. If the key was taken,
this gives one more warning; if the value leads to no definition, the command is a leaf with the
warning about that. -/
structure Registration.Brings (w : Workspace) (above : List Identity) (m : Module)
    (command key : String) (taken : Prop) (r : Registration) (σ : Session) (child : Command)
    (ws : List Warning) (τ : Session) : Prop where
  built : Unbounded.subcommand w above m r.member.node key σ = some (child, τ)
  given : τ.warnings = σ.warnings ++ ws
  name : child.name = key
  new : ¬taken → r.command = some child ∧ r.warnings = ws
  again : taken → ∃ x, x = (Anomaly.registeredTwice key command).at_ m r.member.node ∧
    r.command = some (child.warned x) ∧ r.warnings = ws ++ [x]
  leaf : ∀ why υ, Unbounded.follow w false [] (.source (m.classify (some r.member.node)) m) σ =
    some (.error why, υ) → ∃ x, x = (Anomaly.unresolvedSubcommand key why).at_ m r.member.node ∧
      child = (unresolvedLeaf key m r.member.node).warned x ∧ ws = [x]

def unnamedWarnings (m : Module) (command : String) (members : List Member) : List Warning :=
  (members.filter (·.name.isNone)).map fun member ↦
    (Anomaly.subcommandNotStatic command).at_ m member.node

structure HasSubcommands (w : Workspace) (above : List Identity) (m : Module) (members : List Member)
    (own c : Command) (rs : List Registration) (σ τ : Session) : Prop where
  run : Registered w above m c.name [] σ rs τ
  entries : rs.map (·.member) = members
  command : c = { own with subcommands := c.subcommands, warnings := c.warnings }
  /-- There is one subcommand for each key, in the order of the first members with it. -/
  names : c.subcommands.map (·.name) = (members.filterMap (·.name)).eraseDups
  last : ∀ before r after key, rs = before ++ r :: after → r.member.name = some key →
    (∀ s ∈ after, s.member.name ≠ some key) → c.child key = r.command
  brings : ∀ before r after key, rs = before ++ r :: after → r.member.name = some key →
    ∃ σ child ws τ, r.Brings w above m c.name key (some key ∈ before.map (·.member.name)) σ child
      ws τ
  warnings : c.warnings = own.warnings ++ unnamedWarnings m c.name members
  given : τ.warnings = σ.warnings ++ rs.flatMap (·.warnings)

variable {w : Workspace} {above : List Identity} {m : Module} {command key : String}
  {earlier : List String} {members : List Member} {c c' : Command} {d : Located}
  {rs before after : List Registration} {r : Registration} {σ τ : Session}

theorem isSome_child_iff (c : Command) (key : String) :
    (c.child key).isSome ↔ key ∈ c.subcommands.map (·.name) := by
  simp [child]

theorem mem_names_addSubcommand (c x : Command) (key : String) :
    key ∈ (c.addSubcommand x).subcommands.map (·.name) ↔
      key = x.name ∨ key ∈ c.subcommands.map (·.name) := by
  rw [addSubcommand, names_putChild]
  split
  · rename_i hx
    exact ⟨.inr, fun h ↦ h.elim (fun he ↦ he ▸ hx) id⟩
  · rw [List.mem_append, List.mem_singleton, or_comm]

theorem Builds.exists_registered
    (h : Builds w above (.task (.entries members m c)) σ c' τ)
    (hk : ∀ member ∈ members, member.name ≠ some "")
    (he : ∀ key, key ∈ earlier ↔ key ∈ c.subcommands.map (·.name)) :
    ∃ rs, Registered w above m c.name earlier σ rs τ ∧ rs.map (·.member) = members ∧
      c' = { c with
        subcommands := (rs.filterMap (·.command)).foldl (fun cs x ↦ putChild x cs) c.subcommands
        warnings := c.warnings ++ unnamedWarnings m c.name members } := by
  induction members generalizing c σ earlier with
  | nil =>
    cases h
    exact ⟨[], .nil, rfl, by cases c'; simp [unnamedWarnings]⟩
  | cons member members ih =>
    have hk' : ∀ member ∈ members, member.name ≠ some "" :=
      fun member hm ↦ hk member (List.mem_cons_of_mem _ hm)
    cases h with
    | unnamed hn hx hr =>
      obtain ⟨rs, hrun, hmembers, hc⟩ := ih hr hk' he
      refine ⟨_ :: rs, .unnamed hn hx hrun, congrArg (member :: ·) hmembers, ?_⟩
      rw [hc, hx]
      simp [unnamedWarnings, warned, hn]
    | @named _ _ _ _ key _ c₁ _ child _ υ φ _ hn hb hreg hr =>
      have hkey : key ≠ "" := by
        rintro rfl
        exact hk member List.mem_cons_self hn
      have hname : child.name = key := hb.names hkey
      obtain ⟨ws, hw⟩ := hb.warnings
      have hbuilt := hb.eval
      simp only [register_run, isSome_child_iff, hname, ← he] at hreg
      have htaken (x : Command) (hx : x.name = key) (key' : String) : key' ∈ key :: earlier ↔
          key' ∈ (c.addSubcommand x).subcommands.map (·.name) := by
        rw [mem_names_addSubcommand, hx, List.mem_cons, he]
      split at hreg
      · rename_i htwice
        obtain ⟨rfl, rfl⟩ := Prod.mk.inj hreg
        obtain ⟨rs, hrun, hmembers, hc⟩ := ih hr hk' (htaken _ hname)
        refine ⟨_ :: rs, .again hn htwice hbuilt hname hw.symm rfl hrun,
          congrArg (member :: ·) hmembers, ?_⟩
        rw [hc]
        simp [unnamedWarnings, addSubcommand, hn]
      · rename_i hnew
        obtain ⟨rfl, rfl⟩ := Prod.mk.inj hreg
        obtain ⟨rs, hrun, hmembers, hc⟩ := ih hr hk' (htaken _ hname)
        refine ⟨_ :: rs, .first hn hnew hbuilt hname hw.symm hrun,
          congrArg (member :: ·) hmembers, ?_⟩
        rw [hc]
        simp [unnamedWarnings, addSubcommand, hn]

namespace Registered

theorem name_eq (h : Registered w above m command earlier σ rs τ) :
    ∀ r ∈ rs, r.member.name = r.command.map (·.name) := by
  induction h with
  | nil => exact nofun
  | unnamed hn _ _ ih => exact List.forall_mem_cons.2 ⟨hn, ih⟩
  | first hn _ _ hc _ _ ih => exact List.forall_mem_cons.2 ⟨by rw [hn, Option.map_some, hc], ih⟩
  | again hn _ _ hc _ _ _ ih =>
    exact List.forall_mem_cons.2 ⟨by rw [hn, Option.map_some, warned, hc], ih⟩

theorem names (h : Registered w above m command earlier σ rs τ) :
    (rs.filterMap (·.command)).map (·.name) = (rs.map (·.member)).filterMap (·.name) := by
  rw [List.map_filterMap, List.filterMap_map]
  exact List.filterMap_congr fun r hr ↦ (h.name_eq r hr).symm

theorem warnings (h : Registered w above m command earlier σ rs τ) :
    τ.warnings = σ.warnings ++ rs.flatMap (·.warnings) := by
  induction h with
  | nil => simp
  | unnamed _ _ _ ih => rw [ih, Session.warned, List.flatMap_cons, List.append_assoc]
  | first _ _ _ _ hw _ ih => rw [ih, hw, List.flatMap_cons, List.append_assoc]
  | again _ _ _ _ hw _ _ ih =>
    rw [ih, Session.warned, hw, List.flatMap_cons]
    simp only [List.append_assoc]

end Registered

/-- An entry whose value leads to no definition becomes a leaf with the warning about that. -/
theorem subcommand_unresolved {n : Node} {why : Unresolved} {υ : Session} {child : Command}
    {ws : List Warning}
    (hf : Unbounded.follow w false [] (.source (m.classify (some n)) m) σ = some (.error why, υ))
    (hb : Unbounded.subcommand w above m n key σ = some (child, τ))
    (hw : τ.warnings = σ.warnings ++ ws) :
    ∃ x, x = (Anomaly.unresolvedSubcommand key why).at_ m n ∧
      child = (unresolvedLeaf key m n).warned x ∧ ws = [x] := by
  have hleaf : Unbounded.subcommand w above m n key σ =
      some ((unresolvedLeaf key m n).warned ((Anomaly.unresolvedSubcommand key why).at_ m n),
        υ.warned ((Anomaly.unresolvedSubcommand key why).at_ m n)) := by
    rw [Unbounded.subcommand, Unbounded.bind_apply, hf]
    rfl
  obtain ⟨r, φ, hfollows⟩ := exists_follows w false [] (.source (m.classify (some n)) m) σ
  obtain ⟨-, rfl⟩ := Prod.mk.inj (Option.some_inj.1 (hf.symm.trans hfollows.eval))
  obtain ⟨rfl, rfl⟩ := Prod.mk.inj (Option.some_inj.1 (hb.symm.trans hleaf))
  refine ⟨_, rfl, rfl, ?_⟩
  rw [Session.warned, hfollows.warnings] at hw
  exact (List.append_cancel_left hw).symm

theorem Registered.brings (h : Registered w above m command earlier σ rs τ)
    (hrs : rs = before ++ r :: after) (hkey : r.member.name = some key) :
    ∃ σ child ws τ, r.Brings w above m command key
      (key ∈ earlier ∨ some key ∈ before.map (·.member.name)) σ child ws τ := by
  induction h generalizing before with
  | nil => simp at hrs
  | @unnamed earlier member x rs σ τ hn _ _ ih =>
    cases before with
    | nil =>
      obtain ⟨rfl, -⟩ := List.cons_eq_cons.1 hrs
      rw [hn] at hkey
      cases hkey
    | cons s before =>
      obtain ⟨rfl, hrest⟩ := List.cons_eq_cons.1 hrs
      obtain ⟨σ', child, ws, τ', hb⟩ := ih hrest
      refine ⟨σ', child, ws, τ', ?_⟩
      simpa [hn] using hb
  | @first earlier member key' child ws rs σ τ υ hn hk hb hc hw _ ih =>
    cases before with
    | nil =>
      obtain ⟨rfl, -⟩ := List.cons_eq_cons.1 hrs
      obtain rfl := Option.some_inj.1 (hn.symm.trans hkey)
      refine ⟨σ, child, ws, τ, hb, hw, hc, fun _ ↦ ⟨rfl, rfl⟩, fun ht ↦ ?_, fun why υ hf ↦
        subcommand_unresolved hf hb hw⟩
      simp [hk] at ht
    | cons s before =>
      obtain ⟨rfl, hrest⟩ := List.cons_eq_cons.1 hrs
      obtain ⟨σ', child, ws, τ', hb⟩ := ih hrest
      refine ⟨σ', child, ws, τ', ?_⟩
      simpa [hn, or_assoc, or_left_comm] using hb
  | @again earlier member key' child x ws rs σ τ υ hn hk hb hc hw hx _ ih =>
    cases before with
    | nil =>
      obtain ⟨rfl, -⟩ := List.cons_eq_cons.1 hrs
      obtain rfl := Option.some_inj.1 (hn.symm.trans hkey)
      refine ⟨σ, child, ws, τ, hb, hw, hc, fun ht ↦ absurd (.inl hk) ht,
        fun _ ↦ ⟨x, hx, rfl, rfl⟩, fun why υ hf ↦ subcommand_unresolved hf hb hw⟩
    | cons s before =>
      obtain ⟨rfl, hrest⟩ := List.cons_eq_cons.1 hrs
      obtain ⟨σ', child, ws, τ', hb⟩ := ih hrest
      refine ⟨σ', child, ws, τ', ?_⟩
      simpa [hn, or_assoc, or_left_comm] using hb

theorem Builds.hasSubcommands (h : Builds w above (.task (.entries members m c)) σ c' τ)
    (hk : ∀ member ∈ members, member.name ≠ some "") (hc : c.subcommands = []) :
    ∃ rs, HasSubcommands w above m members c c' rs σ τ := by
  have hnone : ∀ key, key ∈ ([] : List String) ↔ key ∈ c.subcommands.map (·.name) := by simp [hc]
  obtain ⟨rs, hrun, hmembers, he⟩ := h.exists_registered hk hnone
  have hname : c'.name = c.name := by rw [he]
  have hsubcommands : c'.subcommands =
      (rs.filterMap (·.command)).foldl (fun cs x ↦ putChild x cs) [] := by rw [he, hc]
  rw [← hname] at hrun
  refine ⟨rs, hrun, hmembers, by rw [he], ?_, ?_, ?_, ?_, hrun.warnings⟩
  · rw [hsubcommands, names_foldl_putChild, hrun.names, hmembers]
    simp
  · rintro before r after key rfl hr hlast
    obtain ⟨x, hx, hxname⟩ := Option.map_eq_some_iff.1
      ((hrun.name_eq r (by simp)).symm.trans hr)
    have hafter : ∀ y ∈ after.filterMap (·.command), y.name ≠ key := by
      intro y hy hyname
      obtain ⟨s, hs, hsy⟩ := List.mem_filterMap.1 hy
      have hsname := hrun.name_eq s (by simp [hs])
      rw [hsy, Option.map_some, hyname] at hsname
      exact hlast s hs hsname
    rw [child, hsubcommands, List.filterMap_append, List.filterMap_cons_some hx,
      find?_foldl_putChild hxname hafter, hx]
  · intro before r after key hrs hr
    simpa using hrun.brings hrs hr
  · rw [he]

/-- A definition registers one subcommand for each key of the object literal. It has the name of the
key and stands in the place of the first member with the key, but comes from the last one. Every
member with a key brings a command, and every member without a key a warning. -/
theorem build_hasSubcommands {subs : Node}
    (hs : d.owner.object (d.object.get? "subCommands") = some subs)
    (hk : ∀ member ∈ subs.members, member.name ≠ some "") (w : Workspace) (above : List Identity)
    (name : String) (σ : Session) : ∃ as ws υ c τ rs,
      ReadsArgs w (heading name d).name d σ as ws υ ∧
      Unbounded.build w above (.definition name d) σ = some (c, τ) ∧
      HasSubcommands w (d.identity :: above) d.owner subs.members ((heading name d).extended as ws) c
        rs υ τ := by
  obtain ⟨c, τ, h⟩ := exists_builds w above (.definition name d) σ
  have heval := h.eval
  cases h with
  | bare _ hv =>
    rw [hv] at hs
    cases hs
  | notStatic _ hv ho =>
    rw [hv, ho] at hs
    cases hs
  | @literal _ _ _ as ws value subs' _ _ υ _ ha hv ho hb =>
    rw [hv, ho] at hs
    obtain rfl := Option.some_inj.1 hs
    obtain ⟨rs, hr⟩ := hb.hasSubcommands hk (extended_subcommands ..)
    exact ⟨as, ws, υ, c, τ, rs, ha, heval, hr⟩

/-- A definition that registers a key twice, the second time with a name that is not defined. -/
def registering : Located where
  object := objectAt 1 [entryOf "subCommands" subcommands]
  owner := { path := "cli.ts", root := { kind := .program } }
where
  subcommands : Node := objectAt 2 [
    entryOf "build" (objectAt 3 [entryOf "run" (objectAt 4 [])]),
    { kind := .spread, children := [{ kind := .identifier, text := "others" }] },
    entryOf "build" { kind := .identifier, text := "missing" }]
  value : Node := { subcommands with role := some .value }

theorem build_hasSubcommands_registering :
    let w : Workspace := { files := {}, maxFileSize := 0 }
    let σ : Session := { cache := { ttl := 1, maxSize := 1 } }
    registering.owner.object (registering.object.get? "subCommands") = some registering.value ∧
    (∀ member ∈ registering.value.members, member.name ≠ some "") ∧
    ∃ as ws υ c τ rs,
      ReadsArgs w (heading "cli" registering).name registering σ as ws υ ∧
      Unbounded.build w [] (.definition "cli" registering) σ = some (c, τ) ∧
      HasSubcommands w [registering.identity] registering.owner registering.value.members
        ((heading "cli" registering).extended as ws) c rs υ τ := by
  intro w σ
  have hs : registering.owner.object (registering.object.get? "subCommands") =
      some registering.value := by rfl
  have hk : ∀ member ∈ registering.value.members, member.name ≠ some "" := by decide
  exact ⟨hs, hk, build_hasSubcommands hs hk w [] "cli" σ⟩

end CommandCoverage
