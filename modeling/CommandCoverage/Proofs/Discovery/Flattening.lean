import CommandCoverage.Proofs.Command.Tables
import CommandCoverage.Proofs.Cache.Keys
import CommandCoverage.Proofs.Discovery.Args

namespace CommandCoverage

open Script Analysis Scope Command

def Session.warned (σ : Session) (x : Warning) : Session :=
  { σ with warnings := σ.warnings ++ [x], notices := σ.notices ++ [(.commands, x)] }

/-- The arguments that the members of an object literal stand for, in order, and the warnings that
come up, between two sessions. `seen` are the object literals being expanded. -/
inductive Flattens (w : Workspace) (command : String) : List Identity → Module → List Member →
    Session → List Arg → List Warning → Session → Prop
  | nil {seen : List Identity} {m : Module} {σ : Session} :
      Flattens w command seen m [] σ [] [] σ
  | expanded {seen : List Identity} {m : Module} {member : Member} {members : List Member}
      {l : Located} {as bs : List Arg} {ws xs : List Warning} {σ τ υ φ : Session}
      (hf : member.form = .spread) (hs : (spread w member.node m).run σ = (some l, τ))
      (hn : l.identity ∉ seen)
      (h : Flattens w command (l.identity :: seen) l.owner l.object.members τ as ws υ)
      (hr : Flattens w command seen m members υ bs xs φ) :
      Flattens w command seen m (member :: members) σ (as ++ bs) (ws ++ xs) φ
  /-- The spread leads nowhere, or back to an object literal that is being expanded. -/
  | stuck {seen : List Identity} {m : Module} {member : Member} {members : List Member}
      {r : Option Located} {bs : List Arg} {x : Warning} {xs : List Warning} {σ τ φ : Session}
      (hf : member.form = .spread) (hs : (spread w member.node m).run σ = (r, τ))
      (hn : ∀ l, r = some l → l.identity ∈ seen)
      (hx : x = (Anomaly.spreadNotStatic member.node.text command).at_ m member.node)
      (hr : Flattens w command seen m members (τ.warned x) bs xs φ) :
      Flattens w command seen m (member :: members) σ bs (x :: xs) φ
  | computed {seen : List Identity} {m : Module} {member : Member} {members : List Member}
      {bs : List Arg} {x : Warning} {xs : List Warning} {σ φ : Session}
      (hf : member.form ≠ .spread) (hn : member.name = none)
      (hx : x = (Anomaly.computedArg command).at_ m member.node)
      (hr : Flattens w command seen m members (σ.warned x) bs xs φ) :
      Flattens w command seen m (member :: members) σ bs (x :: xs) φ
  | named {seen : List Identity} {m : Module} {member : Member} {members : List Member}
      {key : String} {bs : List Arg} {xs : List Warning} {σ φ : Session}
      (hf : member.form ≠ .spread) (hn : member.name = some key)
      (hr : Flattens w command seen m members σ bs xs φ) :
      Flattens w command seen m (member :: members) σ (declaredArg m key member.node :: bs) xs φ

def Command.warned (c : Command) (x : Warning) : Command := { c with warnings := c.warnings ++ [x] }

/-- A command after the declaration of some arguments, with some more warnings. -/
def Command.extended (c : Command) (as : List Arg) (ws : List Warning) : Command :=
  { as.foldl addArg c with warnings := c.warnings ++ ws }

namespace Command

variable {c : Command} {a : Arg} {as bs : List Arg} {x : Warning} {ws xs : List Warning}

theorem addArg_eq (c : Command) (a : Arg) : c.addArg a = { c with
    flags := (c.addArg a).flags
    options := (c.addArg a).options
    positionals := (c.addArg a).positionals } := by
  unfold addArg
  dsimp only
  split
  · rfl
  · split <;> rfl

theorem addArg_warnings (c : Command) (a : Arg) (ws : List Warning) :
    ({ c with warnings := ws } : Command).addArg a = { c.addArg a with warnings := ws } := by
  unfold addArg
  dsimp only
  split
  · rfl
  · split <;> rfl

theorem foldl_addArg_warnings (as : List Arg) (c : Command) (ws : List Warning) :
    as.foldl addArg { c with warnings := ws } = { as.foldl addArg c with warnings := ws } := by
  induction as generalizing c with
  | nil => rfl
  | cons a as ih => rw [List.foldl_cons, addArg_warnings, ih, List.foldl_cons]

theorem foldl_addArg_eq (as : List Arg) (c : Command) : as.foldl addArg c = { c with
    flags := (as.foldl addArg c).flags
    options := (as.foldl addArg c).options
    positionals := (as.foldl addArg c).positionals } := by
  induction as generalizing c with
  | nil => cases c; rfl
  | cons a as ih => rw [List.foldl_cons, ih, addArg_eq c a]

theorem extended_nil (c : Command) : c.extended [] [] = c := by
  cases c
  simp [extended]

theorem extended_cons (c : Command) (a : Arg) (as : List Arg) (ws : List Warning) :
    (c.addArg a).extended as ws = c.extended (a :: as) ws := by
  have hw : (c.addArg a).warnings = c.warnings := by rw [addArg_eq]
  rw [extended, extended, hw, List.foldl_cons]

theorem extended_warned (c : Command) (x : Warning) (as : List Arg) (ws : List Warning) :
    (c.warned x).extended as ws = c.extended as (x :: ws) := by
  rw [extended, warned, foldl_addArg_warnings, extended, List.append_assoc, List.singleton_append]

theorem extended_append (c : Command) (as bs : List Arg) (ws xs : List Warning) :
    (c.extended as ws).extended bs xs = c.extended (as ++ bs) (ws ++ xs) := by
  simp only [extended, foldl_addArg_warnings, List.foldl_append, List.append_assoc]

theorem extended_name (c : Command) (as : List Arg) (ws : List Warning) :
    (c.extended as ws).name = c.name := by
  rw [extended, foldl_addArg_eq]

theorem extended_subcommands (c : Command) (as : List Arg) (ws : List Warning) :
    (c.extended as ws).subcommands = c.subcommands := by
  rw [extended, foldl_addArg_eq]

end Command

variable {w : Workspace} {command : String} {seen : List Identity} {m : Module} {member : Member}
  {members : List Member} {l : Located} {as : List Arg} {ws : List Warning} {σ τ υ φ : Session}

theorem warnAbout_run (c : Command) (x : Warning) (σ : Session) :
    (warnAbout c x).run σ = (c.warned x, σ.warned x) := rfl

theorem later_warned (x : Warning) (σ : Session) : Later w σ (σ.warned x) := .warn .refl rfl rfl

theorem expansion_run (w : Workspace) (seen : List Identity) (n : Node) (m : Module) (σ : Session) :
    (expansion w seen n m).run σ =
      (((spread w n m).run σ).1.filter fun l ↦ !seen.contains l.identity,
        ((spread w n m).run σ).2) := rfl

namespace Flattens

theorem later (h : Flattens w command seen m members σ as ws τ) : Later w σ τ := by
  induction h with
  | nil => exact .refl
  | @expanded _ m member _ _ _ _ _ _ σ _ _ _ _ hs _ _ _ ih ih' =>
    have hspread := (finds_spread (w := w) member.node m σ).later
    rw [hs] at hspread
    exact hspread.trans (ih.trans ih')
  | @stuck _ m member _ _ _ _ _ σ _ _ _ hs _ _ _ ih =>
    have hspread := (finds_spread (w := w) member.node m σ).later
    rw [hs] at hspread
    exact hspread.trans ((later_warned _ _).trans ih)
  | computed _ _ _ _ ih => exact (later_warned _ _).trans ih
  | named _ _ _ ih => exact ih

theorem warnings (h : Flattens w command seen m members σ as ws τ) :
    τ.warnings = σ.warnings ++ ws := by
  induction h with
  | nil => rw [List.append_nil]
  | @expanded _ m member _ _ _ _ _ _ σ _ _ _ _ hs _ _ _ ih ih' =>
    have hspread := (finds_spread (w := w) member.node m σ).warnings
    rw [hs] at hspread
    rw [ih', ih, hspread, List.append_assoc]
  | @stuck _ m member _ _ _ _ _ σ _ _ _ hs _ _ _ ih =>
    have hspread := (finds_spread (w := w) member.node m σ).warnings
    rw [hs] at hspread
    rw [ih, Session.warned, hspread, List.append_assoc, List.singleton_append]
  | computed _ _ _ _ ih => rw [ih, Session.warned, List.append_assoc, List.singleton_append]
  | named _ _ _ ih => exact ih

theorem kind_eq (h : Flattens w command seen m members σ as ws τ) :
    ∀ x ∈ ws, x.kind = "dynamic_args" := by
  induction h with
  | nil => exact nofun
  | expanded _ _ _ _ _ ih ih' =>
    intro x hx
    exact (List.mem_append.1 hx).elim (ih x) (ih' x)
  | stuck _ _ _ hx _ ih =>
    intro y hy
    rcases List.mem_cons.1 hy with rfl | hy
    · rw [hx]
      rfl
    · exact ih y hy
  | computed _ _ hx _ ih =>
    intro y hy
    rcases List.mem_cons.1 hy with rfl | hy
    · rw [hx]
      rfl
    · exact ih y hy
  | named _ _ _ ih => exact ih

/-- The list is what declaring the members declares. -/
theorem eval (h : Flattens w command seen m members σ as ws τ) (c : Command)
    (hc : c.name = command) :
    Unbounded.addArgs w seen m members c σ = some (c.extended as ws, τ) := by
  induction h generalizing c with
  | nil =>
    rw [Unbounded.addArgs_nil, extended_nil]
    rfl
  | @expanded seen m member members l as bs ws xs σ τ υ φ hf hs hn _ _ ih ih' =>
    have hexpansion : (expansion w seen member.node m).run σ = (some l, τ) := by
      rw [expansion_run, hs]
      simp [Option.filter, hn]
    simp only [Unbounded.addArgs_spread hf, Unbounded.bind_apply, Unbounded.step_apply, hexpansion,
      Option.bind_some, ih c hc]
    rw [ih' _ ((extended_name ..).trans hc), extended_append]
  | @stuck seen m member members r bs x xs σ τ φ hf hs hn hx _ ih =>
    have hexpansion : (expansion w seen member.node m).run σ = (none, τ) := by
      rw [expansion_run, hs]
      cases r with
      | none => rfl
      | some l => simp [Option.filter, hn l rfl]
    simp only [Unbounded.addArgs_spread hf, Unbounded.bind_apply, Unbounded.step_apply, hexpansion,
      Option.bind_some, warnAbout_run]
    rw [hc, ← hx, ih (c.warned x) hc, extended_warned]
  | @computed seen m member members bs x xs σ φ hf hn hx _ ih =>
    simp only [Unbounded.addArgs_computed hf hn, Unbounded.bind_apply, Unbounded.step_apply,
      Option.bind_some, warnAbout_run]
    rw [hc, ← hx, ih (c.warned x) hc, extended_warned]
  | @named seen m member members key bs xs σ φ hf hn _ ih =>
    have hname : (c.addArg (declaredArg m key member.node)).name = c.name := by rw [addArg_eq]
    rw [Unbounded.addArgs_named hf hn, ih _ (hname.trans hc), extended_cons]

theorem unique {bs : List Arg} {xs : List Warning} (h : Flattens w command seen m members σ as ws τ)
    (h' : Flattens w command seen m members σ bs xs υ) : as = bs ∧ ws = xs ∧ τ = υ := by
  induction h generalizing bs xs υ with
  | nil =>
    cases h'
    exact ⟨rfl, rfl, rfl⟩
  | expanded hf hs hn _ _ ih ih' =>
    cases h' with
    | expanded _ hs' _ h₁ h₂ =>
      obtain ⟨hl, rfl⟩ := Prod.mk.inj (hs.symm.trans hs')
      obtain rfl := Option.some_inj.1 hl
      obtain ⟨rfl, rfl, rfl⟩ := ih h₁
      obtain ⟨rfl, rfl, rfl⟩ := ih' h₂
      exact ⟨rfl, rfl, rfl⟩
    | stuck _ hs' hn' =>
      obtain ⟨rfl, -⟩ := Prod.mk.inj (hs.symm.trans hs')
      exact absurd (hn' _ rfl) hn
    | computed hf' => exact absurd hf hf'
    | named hf' => exact absurd hf hf'
  | stuck hf hs hn hx _ ih =>
    cases h' with
    | expanded _ hs' hn' =>
      obtain ⟨rfl, -⟩ := Prod.mk.inj (hs.symm.trans hs')
      exact absurd (hn _ rfl) hn'
    | stuck _ hs' _ hx' h₁ =>
      obtain ⟨rfl, rfl⟩ := Prod.mk.inj (hs.symm.trans hs')
      obtain rfl := hx.trans hx'.symm
      obtain ⟨rfl, rfl, rfl⟩ := ih h₁
      exact ⟨rfl, rfl, rfl⟩
    | computed hf' => exact absurd hf hf'
    | named hf' => exact absurd hf hf'
  | computed hf hn hx _ ih =>
    cases h' with
    | expanded hf' => exact absurd hf' hf
    | stuck hf' => exact absurd hf' hf
    | computed _ _ hx' h₁ =>
      obtain rfl := hx.trans hx'.symm
      obtain ⟨rfl, rfl, rfl⟩ := ih h₁
      exact ⟨rfl, rfl, rfl⟩
    | named _ hn' => exact absurd (hn.symm.trans hn') nofun
  | named hf hn _ ih =>
    cases h' with
    | expanded hf' => exact absurd hf' hf
    | stuck hf' => exact absurd hf' hf
    | computed _ hn' => exact absurd (hn.symm.trans hn') nofun
    | named _ hn' h₁ =>
      obtain rfl := Option.some_inj.1 (hn.symm.trans hn')
      obtain ⟨rfl, rfl, rfl⟩ := ih h₁
      exact ⟨rfl, rfl, rfl⟩

end Flattens

theorem exists_flattens (w : Workspace) (command : String) (seen : List Identity) (m : Module)
    (members : List Member) (σ : Session) :
    ∃ as ws τ, Flattens w command seen m members σ as ws τ := by
  match members with
  | [] => exact ⟨[], [], σ, .nil⟩
  | member :: members =>
    by_cases hf : member.form = .spread
    · have hfinds := finds_spread (w := w) member.node m σ
      generalize hs : (spread w member.node m).run σ = x at hfinds
      obtain ⟨r, τ⟩ := x
      by_cases hn : ∀ l, r = some l → l.identity ∈ seen
      · obtain ⟨as, ws, υ, hr⟩ := exists_flattens w command seen m members (τ.warned _)
        exact ⟨as, _ :: ws, υ, .stuck hf hs hn rfl hr⟩
      · push Not at hn
        obtain ⟨l, rfl, hnew⟩ := hn
        obtain ⟨as, ws, υ, h⟩ := exists_flattens w command (l.identity :: seen) l.owner
          l.object.members τ
        obtain ⟨bs, xs, φ, hr⟩ := exists_flattens w command seen m members υ
        exact ⟨as ++ bs, ws ++ xs, φ, .expanded hf hs hnew h hr⟩
    · cases hn : member.name with
      | none =>
        obtain ⟨as, ws, υ, hr⟩ := exists_flattens w command seen m members (σ.warned _)
        exact ⟨as, _ :: ws, υ, .computed hf hn rfl hr⟩
      | some key =>
        obtain ⟨as, ws, υ, hr⟩ := exists_flattens w command seen m members σ
        exact ⟨_ :: as, ws, υ, .named hf hn hr⟩
termination_by (unread w σ, uncut σ.modules seen (ofMembers m members), members.length)
decreasing_by
  · exact lighter_of_rank (hfinds.later.trans (later_warned _ _)) (inside_tail ..)
      (Nat.lt_succ_self _)
  · have hinside := (hfinds.inside l rfl).trans (inside_head m member members)
    exact lighter_of_cut hfinds.later ((inside_members ..).trans hinside) hinside.identity_mem hnew
  · exact lighter_of_rank (hfinds.later.trans h.later) (inside_tail ..) (Nat.lt_succ_self _)
  · exact lighter_of_rank (later_warned _ _) (inside_tail ..) (Nat.lt_succ_self _)
  · exact lighter_of_rank .refl (inside_tail ..) (Nat.lt_succ_self _)

/-- The arguments that a definition has, and the warnings that come up, between two sessions. -/
inductive ReadsArgs (w : Workspace) (command : String) (d : Located) :
    Session → List Arg → List Warning → Session → Prop
  | none {σ : Session} (h : d.object.get? "args" = none) : ReadsArgs w command d σ [] [] σ
  | notStatic {value : Node} {x : Warning} {σ : Session} (h : d.object.get? "args" = some value)
      (ho : d.owner.object (some value) = none)
      (hx : x = (Anomaly.argsNotStatic command).at_ d.owner value) :
      ReadsArgs w command d σ [] [x] (σ.warned x)
  | literal {value args : Node} {as : List Arg} {ws : List Warning} {σ τ : Session}
      (h : d.object.get? "args" = some value) (ho : d.owner.object (some value) = some args)
      (hf : Flattens w command [⟨d.owner.path, args.start⟩] d.owner args.members σ as ws τ) :
      ReadsArgs w command d σ as ws τ

namespace ReadsArgs

variable {d : Located}

theorem later (h : ReadsArgs w command d σ as ws τ) : Later w σ τ := by
  cases h with
  | none => exact .refl
  | notStatic => exact later_warned _ _
  | literal _ _ hf => exact hf.later

theorem warnings (h : ReadsArgs w command d σ as ws τ) : τ.warnings = σ.warnings ++ ws := by
  cases h with
  | none => rw [List.append_nil]
  | notStatic => rfl
  | literal _ _ hf => exact hf.warnings

theorem eval (h : ReadsArgs w command d σ as ws τ) (c : Command) (hc : c.name = command) :
    Unbounded.addDeclaredArgs w d c σ = some (c.extended as ws, τ) := by
  rw [Unbounded.addDeclaredArgs]
  cases h with
  | none h =>
    rw [h, extended_nil]
    rfl
  | notStatic h ho hx =>
    simp only [h, ho]
    rw [Unbounded.step_apply, warnAbout_run, hc, ← hx, ← extended_warned, extended_nil]
  | literal h ho hf =>
    simp only [h, ho]
    exact hf.eval c hc

end ReadsArgs

theorem exists_readsArgs (w : Workspace) (command : String) (d : Located) (σ : Session) :
    ∃ as ws τ, ReadsArgs w command d σ as ws τ := by
  cases h : d.object.get? "args" with
  | none => exact ⟨[], [], σ, .none h⟩
  | some value =>
    cases ho : d.owner.object (some value) with
    | none => exact ⟨[], [_], _, .notStatic h ho rfl⟩
    | some args =>
      obtain ⟨as, ws, τ, hf⟩ := exists_flattens w command [⟨d.owner.path, args.start⟩] d.owner
        args.members σ
      exact ⟨as, ws, τ, .literal h ho hf⟩

/-- Declaring the arguments of a definition ends, and the tables hold the last entry of each name in
the list that its object literal stands for. Each member that cannot be read adds a warning and
nothing else. -/
theorem addDeclaredArgs_flattened {d : Located} {args : Node}
    (hargs : d.owner.object (d.object.get? "args") = some args) (w : Workspace) (name : String)
    (σ : Session) : ∃ as ws τ c,
      Flattens w (heading name d).name [⟨d.owner.path, args.start⟩] d.owner args.members σ as ws τ ∧
      (∀ bs xs υ, Flattens w (heading name d).name [⟨d.owner.path, args.start⟩] d.owner args.members
        σ bs xs υ → bs = as ∧ xs = ws ∧ υ = τ) ∧
      Unbounded.addDeclaredArgs w d (heading name d) σ = some (c, τ) ∧
      c.Tabulates as ∧
      c.warnings = ws ∧ τ.warnings = σ.warnings ++ ws ∧ (∀ x ∈ ws, x.kind = "dynamic_args") ∧
      c = { heading name d with
        flags := c.flags
        options := c.options
        positionals := c.positionals
        warnings := c.warnings } := by
  obtain ⟨as, ws, τ, hf⟩ := exists_flattens w (heading name d).name [⟨d.owner.path, args.start⟩]
    d.owner args.members σ
  obtain ⟨value, hvalue⟩ : ∃ value, d.object.get? "args" = some value := by
    rw [← Option.ne_none_iff_exists']
    intro hn
    rw [hn] at hargs
    cases hargs
  have ho : d.owner.object (some value) = some args := hvalue ▸ hargs
  have heval := (ReadsArgs.literal hvalue ho hf).eval (heading name d) rfl
  have htables : (as.foldl addArg (heading name d)).Tabulates as :=
    tabulates_foldl_addArg as fun k ↦ by cases k <;> rfl
  refine ⟨as, ws, τ, _, hf, fun bs xs υ h ↦ h.unique hf, heval, ?_, rfl, hf.warnings, hf.kind_eq, ?_⟩
  · exact tabulates_of_declared htables.tables
  · rw [extended, foldl_addArg_eq]

def objectAt (start : Nat) (members : List Node) : Node :=
  { kind := .object, start, children := members }

def entryOf (key : String) (value : Node) : Node :=
  { kind := .pair
    children := [
      { kind := .propertyName, role := some .key, text := key },
      { value with role := some .value }] }

theorem spread_run_of_object {v obj : Node} (h : m.object (some v) = some obj) :
    (spread w v m).run σ = (some ⟨obj, m⟩, σ) := by
  rw [spread, spreadWithin.eq_def]
  simp only [mostSteps, h]
  rfl

theorem spread_run_of_imported {target : Module} {v obj : Node} {i : Import}
    {fromFile path name : String} (hv : m.object (some v) = none)
    (hi : m.classify (some v) = .imported i fromFile)
    (hr : w.files.resolveModule i.specifier fromFile = some path)
    (hl : Loads w path σ (.ok target) τ) (he : target.exports.get? i.name = some (.bound name))
    (hn : target.imports.get? name = none)
    (ho : target.object (target.bindings.get? name) = some obj) :
    (spread w v m).run σ = (some ⟨obj, target⟩, τ) := by
  have hvalue (steps : Nat) : spreadWithin w (steps + 1) (.value (target.bindings.get? name) target) =
      pure (some ⟨obj, target⟩) := by
    rw [spreadWithin.eq_def]
    simp only [ho]
  rw [spread, mostSteps, spreadWithin.eq_def]
  simp only [hv, hi]
  rw [spreadWithin.eq_def]
  simp only [hr, run_bind, hl.run, he, hn, hvalue]
  rfl

theorem name_declaredArg (m : Module) (key : String) (n : Node) :
    (declaredArg m key n).name = key := by
  unfold declaredArg
  split <;> rfl

section spreading

def entryMember (key : String) (value : Node) : Member :=
  ⟨.pair, some key, { value with role := some .value }⟩

def nameNode (name : String) : Node := { kind := .identifier, text := name }

def spreadMember (name : String) : Member := ⟨.spread, none, nameNode name⟩

def spreadOf (name : String) : Node := { kind := .spread, children := [nameNode name] }

/-- A definition with an argument that a spread after it declares again, as a flag. The object literal
of this spread is spread in itself too, and a last spread is of one in another file. -/
def spreading : Located where
  object := objectAt 1 [entryOf "args" args]
  owner :=
    { path := "cli.mjs", root := { kind := .program }, bindings := ⟨[("common", common)]⟩
      imports := ⟨[("shared", ⟨"./shared.mjs", "shared"⟩)]⟩ }
where
  args : Node :=
    { objectAt 2 [entryOf "verbose" (objectAt 3 []), spreadOf "common", spreadOf "shared"] with
      role := some .value }
  common : Node := objectAt 4 [entryOf "verbose" flag, spreadOf "common"]
  flag : Node := objectAt 5 [entryOf "type" { kind := .string, text := "'boolean'" }]

def sharedText : String := "export const shared = \x7b force: \x7b type: 'boolean' \x7d \x7d\n"

def sharedModule : Module := moduleOf "shared.mjs" sharedText

def sharedWorkspace : Workspace where
  files := .single "shared.mjs" sharedText.toUTF8.toList
  maxFileSize := 100

theorem exists_shared : ∃ obj member,
    sharedModule.object (sharedModule.bindings.get? "shared") = some obj ∧
      obj.members = [member] ∧ member.form = .pair ∧ member.name = some "force" := by
  have h : ((sharedModule.object (sharedModule.bindings.get? "shared")).map fun obj ↦
      obj.members.map fun x ↦ (x.form, x.name)) = some [(.pair, some "force")] := by
    decide +kernel
  obtain ⟨obj, hobj, hmembers⟩ := Option.map_eq_some_iff.1 h
  obtain ⟨member, hmember, hread⟩ := List.map_eq_singleton_iff.1 hmembers
  exact ⟨obj, member, hobj, hmember, (Prod.mk.inj hread).1, (Prod.mk.inj hread).2⟩

theorem loads_shared (hc : σ.cache.enabled = false) (hm : σ.modules = {}) :
    ∃ τ, Loads sharedWorkspace "shared.mjs" σ (.ok sharedModule) τ := by
  have htext : Text.decodeUtf8 sharedText.toUTF8.toList = .ok sharedText ∧
      sharedText.toUTF8.toList.length ≤ 100 := by
    simp only [Text.toList_toUTF8]
    decide +kernel
  have hread : sharedWorkspace.files.read sharedWorkspace.maxFileSize "shared.mjs" =
      .ok ⟨"shared.mjs", sharedText, sharedText.toUTF8.toList.length⟩ :=
    read_eq_ok_iff.2 ⟨_, rfl, htext.2, htext.1, rfl, rfl⟩
  have hnew : σ.modules.get? (sharedWorkspace.files.absolute "shared.mjs") = none := by
    rw [hm]
    rfl
  exact loads_moduleOf hc hnew ⟨_, hread⟩ (by decide +kernel)

theorem spread_shared (hl : Loads sharedWorkspace "shared.mjs" σ (.ok sharedModule) τ) {obj : Node}
    (hobj : sharedModule.object (sharedModule.bindings.get? "shared") = some obj) :
    (spread sharedWorkspace (nameNode "shared") spreading.owner).run σ =
      (some ⟨obj, sharedModule⟩, τ) := by
  have hbound : sharedModule.exports.get? "shared" = some (.bound "shared") :=
    get?_of_bound? (by decide +kernel)
  have himport : (sharedModule.imports.get? "shared").isNone = true := by decide +kernel
  exact spread_run_of_imported rfl rfl (by decide +kernel) hl hbound
    (Option.isNone_iff_eq_none.1 himport) hobj

/-- The list that the members stand for, and the warning about the object literal in itself. -/
theorem flattens_spreading (command : String) (hc : σ.cache.enabled = false) (hm : σ.modules = {}) :
    ∃ as x τ, Flattens sharedWorkspace command [⟨spreading.owner.path, spreading.args.start⟩]
        spreading.owner spreading.args.members σ as [x] τ ∧
      as.map (·.name) = ["verbose", "verbose", "force"] := by
  obtain ⟨obj, member, hobj, hmembers, hform, hname⟩ := exists_shared
  let x := (Anomaly.spreadNotStatic "common" command).at_ spreading.owner (nameNode "common")
  obtain ⟨τ, hl⟩ := @loads_shared (σ.warned x) hc hm
  have hcommon (σ : Session) : (spread sharedWorkspace (nameNode "common") spreading.owner).run σ =
      (some ⟨spreading.common, spreading.owner⟩, σ) := spread_run_of_object rfl
  have hinner : Flattens sharedWorkspace command [⟨"cli.mjs", 4⟩, ⟨"cli.mjs", 2⟩] spreading.owner
      [entryMember "verbose" spreading.flag, spreadMember "common"] σ
      [declaredArg spreading.owner "verbose" { spreading.flag with role := some .value }] [x]
      (σ.warned x) := by
    refine .named (by decide) rfl (.stuck rfl (hcommon σ) ?_ rfl .nil)
    rintro l ⟨⟩
    exact List.mem_cons_self
  have hpath : sharedModule.path = "shared.mjs" := Module.path_ofRoot _ _
  have hfirst : (⟨spreading.common, spreading.owner⟩ : Located).identity ∉
      [(⟨spreading.owner.path, spreading.args.start⟩ : Identity)] := by
    decide
  have hsecond : (⟨obj, sharedModule⟩ : Located).identity ∉
      [(⟨spreading.owner.path, spreading.args.start⟩ : Identity)] := by
    simp [Located.identity, hpath, spreading]
  have hshared : Flattens sharedWorkspace command [⟨sharedModule.path, obj.start⟩, ⟨"cli.mjs", 2⟩]
      sharedModule obj.members τ [declaredArg sharedModule "force" member.node] [] τ := by
    rw [hmembers]
    exact .named (by simp [hform]) hname .nil
  refine ⟨_, x, τ, .named (by decide) rfl (.expanded rfl (hcommon σ) hfirst hinner
    (.expanded rfl (spread_shared hl hobj) hsecond hshared .nil)), ?_⟩
  simp [name_declaredArg]

theorem addDeclaredArgs_flattened_spreading :
    let σ : Session := { cache := { ttl := 1, maxSize := 1, enabled := false } }
    spreading.owner.object (spreading.object.get? "args") = some spreading.args ∧
    ∃ as x τ c,
      Flattens sharedWorkspace "cli" [⟨spreading.owner.path, spreading.args.start⟩]
        spreading.owner spreading.args.members σ as [x] τ ∧
      as.map (·.name) = ["verbose", "verbose", "force"] ∧
      Unbounded.addDeclaredArgs sharedWorkspace spreading (heading "cli" spreading) σ =
        some (c, τ) ∧
      c.Tabulates as ∧ c.warnings = [x] ∧ x.kind = "dynamic_args" := by
  intro σ
  have hargs : spreading.owner.object (spreading.object.get? "args") = some spreading.args := by
    rfl
  obtain ⟨as, x, τ, hflattens, hnames⟩ := @flattens_spreading σ "cli" rfl rfl
  obtain ⟨bs, xs, υ, c, -, hunique, hend, htables, hwarnings, -, hkinds, -⟩ :=
    addDeclaredArgs_flattened hargs sharedWorkspace "cli" σ
  obtain ⟨rfl, rfl, rfl⟩ := hunique as [x] τ hflattens
  exact ⟨hargs, as, x, τ, c, hflattens, hnames, hend, htables, hwarnings,
    hkinds x (List.mem_singleton_self x)⟩

end spreading

end CommandCoverage
