import CommandCoverage.Proofs.Cache.Keys
import CommandCoverage.Proofs.Discovery.Choice
import CommandCoverage.Proofs.Discovery.Resolution

namespace CommandCoverage

open Script Analysis Relation

def PassesOn (w : Workspace) (localOnly : Bool) (τ : Session) (m target : Module) : Prop :=
  ∃ specifier ∈ m.stars, ∃ path, LeadsTo w localOnly ⟨specifier, "default"⟩ m.path path ∧
    ((load w path).run τ).1 = .ok target

/-- A module passes on all exports of another one, directly or through modules that have no default
export themselves. -/
inductive StarsTo (w : Workspace) (localOnly : Bool) (τ : Session) : Module → Module → Prop
  | direct {m target : Module} (h : PassesOn w localOnly τ m target) : StarsTo w localOnly τ m target
  | through {m n target : Module} (h : PassesOn w localOnly τ m n)
      (hn : n.exports.get? "default" = none)
      (hs : StarsTo w localOnly τ n target) : StarsTo w localOnly τ m target

/-- A query comes to ask for the default export of a module: no other way on from it leads to a
definition. -/
inductive AsksDefault (w : Workspace) (localOnly : Bool) (τ : Session) (m : Module) : Query → Prop
  | asked : AsksDefault w localOnly τ m (.exported "default" m)
  | step {q q' : Query} (hs : Step w localOnly τ q q')
      (hothers : ∀ x, Step w localOnly τ q x → x ≠ q' → ∀ l, ¬Reaches w localOnly τ x l)
      (h : AsksDefault w localOnly τ m q') : AsksDefault w localOnly τ m q

/-- The queries that come of asking a module without a default export for it, up to another module. -/
inductive Forwards (m : Module) : Query → Prop
  | exported : Forwards m (.exported "default" m)
  | starred {specifiers : List String} (h : specifiers ⊆ m.stars) :
      Forwards m (.starred "default" specifiers m)
  | source {specifier : String} (h : specifier ∈ m.stars) :
      Forwards m (.source (.imported ⟨specifier, "default"⟩ m.path) m)

variable {w : Workspace} {localOnly : Bool} {σ τ : Session} {m n target : Module} {q q' x : Query}
  {l : Located}

theorem Step.unique (hq : ∀ name specifiers n, q ≠ .starred name specifiers n)
    (hs : Step w localOnly τ q q') (hs' : Step w localOnly τ q x) : x = q' := by
  cases hs with
  | move h => exact h.step_eq hs'
  | binding h =>
    cases hs' with
    | move h' =>
      cases h' with
      | ofImport hi => rw [h.noImport] at hi; cases hi
    | binding h' =>
      obtain rfl := Option.some_inj.1 (h.value.symm.trans h'.value)
      rfl
  | imported h hl =>
    obtain ⟨path', target', h', hl', rfl⟩ := hs'.of_imported
    obtain rfl := Option.some_inj.1 (h.resolved.symm.trans h'.resolved)
    rw [Except.ok.inj (hl.symm.trans hl')]
  | star => exact absurd rfl (hq _ _ _)

theorem not_step_inline {obj : Node} : ¬Step w localOnly τ (.source (.inline obj) m) x := by
  intro h
  cases h with
  | move h => cases h

theorem AsksDefault.of_not_starred (hq : ∀ name specifiers n, q ≠ .starred name specifiers n)
    (hs : Step w localOnly τ q q') (h : AsksDefault w localOnly τ m q') :
    AsksDefault w localOnly τ m q :=
  .step hs (fun _ hx hne ↦ absurd (hs.unique hq hx) hne) h

theorem AsksDefault.reaches_iff (h : AsksDefault w localOnly τ m q) :
    Reaches w localOnly τ q l ↔ Reaches w localOnly τ (.exported "default" m) l := by
  induction h with
  | asked => exact Iff.rfl
  | @step q q' hs hothers _ ih =>
    refine ⟨fun hl ↦ ih.1 ?_, fun hl ↦ (ih.2 hl).head hs⟩
    rcases hl.steps.cases_head with rfl | ⟨x, hx, hrest⟩
    · exact absurd hs not_step_inline
    · by_cases hxq : x = q'
      · exact hxq ▸ ⟨hrest, hl.command⟩
      · exact absurd ⟨hrest, hl.command⟩ (hothers x hx hxq l)

theorem PassesOn.reaches (h : PassesOn w localOnly τ m target) (hm : m.exports.get? "default" = none)
    (ht : Reaches w localOnly τ (.exported "default" target) l) :
    Reaches w localOnly τ (.exported "default" m) l := by
  obtain ⟨specifier, hmem, path, hleads, hload⟩ := h
  exact ((ht.head (.imported hleads hload)).head (.star hmem)).head (.move (.ofStars hm))

theorem StarsTo.reaches (h : StarsTo w localOnly τ m target) (hm : m.exports.get? "default" = none)
    (ht : Reaches w localOnly τ (.exported "default" target) l) :
    Reaches w localOnly τ (.exported "default" m) l := by
  induction h with
  | direct h => exact h.reaches hm ht
  | through h hn _ ih => exact h.reaches hm (ih hn ht)

/-- What is reached by asking a module without a default export for it is reached from one of those
that its stars lead to. -/
theorem Forwards.exists_starsTo (hq : Forwards m q) (hm : m.exports.get? "default" = none)
    (h : Reaches w localOnly τ q l) : ∃ target, StarsTo w localOnly τ m target ∧
      (target.exports.get? "default").isSome ∧
        Reaches w localOnly τ (.exported "default" target) l := by
  obtain ⟨hs, hc⟩ := h
  induction hs using ReflTransGen.head_induction_on generalizing m with
  | refl => cases hq
  | head hs hrest ih =>
    cases hq with
    | exported =>
      obtain rfl := (Moves.ofStars hm).step_eq hs
      exact ih (.starred (List.Subset.refl _)) hm
    | starred hsub =>
      obtain ⟨specifier, hmem, rfl⟩ := hs.of_starred
      exact ih (.source (hsub hmem)) hm
    | source hmem =>
      obtain ⟨path, target, hleads, hload, rfl⟩ := hs.of_imported
      have hpasses : PassesOn w localOnly τ m target := ⟨_, hmem, path, hleads, hload⟩
      cases ht : target.exports.get? "default" with
      | some e => exact ⟨target, .direct hpasses, by simp [ht], hrest, hc⟩
      | none =>
        obtain ⟨own, hstars, hown, hreaches⟩ := ih .exported ht
        exact ⟨own, .through hpasses ht hstars, hown, hreaches⟩

/-- A request for the default export of a module that has none is unresolved exactly if no module that
its stars lead to has a default export that denotes a definition. -/
theorem default_unresolved_iff (hk : Keyed w σ)
    (hm : σ.modules.get? (w.files.absolute q.module.path) = some q.module)
    (hc : σ.cache.enabled = true → w.KeysApart) :
    ∃ r τ, Unbounded.follow w localOnly [] q σ = some (r, τ) ∧ Later w σ τ ∧
      ∀ m, AsksDefault w localOnly τ m q → m.exports.get? "default" = none →
        ((∃ why, r = .error why) ↔ ∀ target, StarsTo w localOnly τ m target →
          (target.exports.get? "default").isSome →
            ∀ l, ¬Reaches w localOnly τ (.exported "default" target) l) := by
  obtain ⟨r, τ, h⟩ := exists_follows w localOnly [] q σ
  refine ⟨r, τ, h.eval, h.later, fun m hasks hnone ↦ ⟨?_, fun hdead ↦ ?_⟩⟩
  · rintro ⟨why, rfl⟩ target hstars - l hl
    have hreaches := hasks.reaches_iff.2 (hstars.reaches hnone hl)
    exact h.not_way hc hk hm .refl hreaches.way
  · cases r with
    | error why => exact ⟨why, rfl⟩
    | ok l =>
      obtain ⟨target, hstars, hown, hl⟩ :=
        Forwards.exported.exists_starsTo hnone (hasks.reaches_iff.1 (h.reaches .refl))
      exact absurd hl (hdead target hstars hown l)

section starring

def commandText : String := "export default defineCommand(\x7b run() \x7b\x7d \x7d)\n"

def starring : Workspace where
  files := { root := .directory [
    ("impl.mjs", .file commandText.toUTF8.toList),
    ("sub.mjs", .file "export * from './impl.mjs'\n".toUTF8.toList)] }
  maxFileSize := 100

def passing : Module := moduleOf "sub.mjs" "export * from './impl.mjs'\n"

def implementing : Module := moduleOf "impl.mjs" commandText

theorem path_passing : passing.path = "sub.mjs" := Module.path_ofRoot _ _

theorem stars_passing : passing.stars = ["./impl.mjs"] := by decide +kernel

theorem default_passing : passing.exports.get? "default" = none := by
  have h : (passing.exports.get? "default").isNone = true := by decide +kernel
  simpa using h

def defaultObject (m : Module) : Option Node :=
  match m.exports.get? "default" with
  | some (.value v) => inlineObject m v
  | _ => none

theorem exists_value_of_defaultObject {m : Module} {obj : Node} (h : defaultObject m = some obj) :
    ∃ v, m.exports.get? "default" = some (.value v) ∧ m.classify (some v) = .inline obj := by
  rw [defaultObject] at h
  split at h
  · rename_i v hv
    exact ⟨v, hv, classify_of_inlineObject h⟩
  · cases h

theorem default_implementing : (defaultObject implementing).any (·.looksLikeCommand) = true := by
  decide +kernel

theorem leadsTo_starring :
    LeadsTo starring false ⟨"./impl.mjs", "default"⟩ passing.path "impl.mjs" := by
  refine ⟨rfl, ?_⟩
  rw [path_passing]
  decide +kernel

theorem loads_starring : ∃ τ,
    Loads starring "impl.mjs" (afterReading starring passing) (.ok implementing) τ := by
  have hnew : (afterReading starring passing).modules.get? (starring.files.absolute "impl.mjs") =
      none := by
    have hne : starring.files.absolute "impl.mjs" ≠ starring.files.absolute passing.path := by
      rw [path_passing]
      decide +kernel
    rw [afterReading, Table.get?, Table.lookup_cons_eq, if_neg hne, List.lookup_nil]
  have htext : Text.decodeUtf8 commandText.toUTF8.toList = .ok commandText ∧
      commandText.toUTF8.toList.length ≤ 100 := by
    simp only [Text.toList_toUTF8]
    decide +kernel
  have hread : starring.files.read starring.maxFileSize "impl.mjs" =
      .ok ⟨"impl.mjs", commandText, commandText.toUTF8.toList.length⟩ :=
    read_eq_ok_iff.2 ⟨_, rfl, htext.2, htext.1, rfl, rfl⟩
  exact loads_moduleOf rfl hnew ⟨_, hread⟩ (by decide +kernel)

/-- The default export of a module that has none is resolved to that of another module. -/
theorem default_resolved_through_star : ∃ l τ, passing.exports.get? "default" = none ∧
    (resolveExport starring "default" passing).run (afterReading starring passing) = (.ok l, τ) ∧
    l.owner.path = "impl.mjs" ∧ l.object.looksLikeCommand = true := by
  obtain ⟨τ, hloads⟩ := loads_starring
  obtain ⟨obj, hdefault, hcommand⟩ := (Option.any_eq_true _ _).1 default_implementing
  obtain ⟨v, hv, hobj⟩ := exists_value_of_defaultObject hdefault
  have hfollows : Follows starring false [] (.exported "default" passing)
      (afterReading starring passing) (.ok ⟨obj, implementing⟩) τ := by
    refine .move (.ofStars default_passing) ?_
    rw [stars_passing]
    refine .star (.imported leadsTo_starring List.not_mem_nil hloads (.move (.ofValue hv) ?_))
    rw [hobj]
    exact .answer (.definition hcommand)
  exact ⟨_, τ, default_passing, hfollows.resolveExport_run,
    Module.path_ofRoot _ _, hcommand⟩

def importing : Module where
  path := "cli.mjs"
  root := { kind := .program }
  imports := ⟨[("sub", ⟨"./sub.mjs", "default"⟩)]⟩

def afterImporting : Session where
  cache := { ttl := 1, maxSize := 1, enabled := false }
  modules := ⟨[("/cli.mjs", importing), ("/sub.mjs", passing)]⟩

theorem absolute_importing : starring.files.absolute importing.path = "/cli.mjs" := by
  decide +kernel

theorem absolute_passing : starring.files.absolute "sub.mjs" = "/sub.mjs" := by
  decide +kernel

theorem keyed_afterImporting : Keyed starring afterImporting := by
  intro k m h
  have hmem := Table.mem_entries_of_get? h
  simp only [afterImporting, List.mem_cons, List.not_mem_nil, or_false, Prod.mk.injEq] at hmem
  rcases hmem with ⟨rfl, rfl⟩ | ⟨rfl, rfl⟩
  · exact absolute_importing
  · rw [path_passing, absolute_passing]

theorem asksDefault_importing {τ : Session} (h : Later starring afterImporting τ) :
    AsksDefault starring false τ passing (.source (.bound "sub") importing) := by
  have hheld : afterImporting.modules.get? (starring.files.absolute "sub.mjs") = some passing := by
    rw [absolute_passing]
    rfl
  have hleads : LeadsTo starring false ⟨"./sub.mjs", "default"⟩ "cli.mjs" "sub.mjs" := by
    refine ⟨rfl, ?_⟩
    decide +kernel
  have hload : ((load starring "sub.mjs").run τ).1 = .ok passing := by
    rw [load_of_known (h.get? hheld)]
  refine .of_not_starred (by simp) (.move (.ofImport rfl)) ?_
  exact .of_not_starred (by simp) (.imported hleads hload) .asked

theorem default_unresolved_iff_importing :
    Keyed starring afterImporting ∧
    afterImporting.modules.get? (starring.files.absolute importing.path) = some importing ∧
    (afterImporting.cache.enabled = true → starring.KeysApart) ∧
    ∃ r τ, Unbounded.follow starring false [] (.source (.bound "sub") importing) afterImporting =
        some (r, τ) ∧
      AsksDefault starring false τ passing (.source (.bound "sub") importing) ∧
      passing.exports.get? "default" = none ∧
      ((∃ why, r = .error why) ↔ ∀ target, StarsTo starring false τ passing target →
        (target.exports.get? "default").isSome →
          ∀ l, ¬Reaches starring false τ (.exported "default" target) l) := by
  have hheld : afterImporting.modules.get? (starring.files.absolute importing.path) =
      some importing := by
    rw [absolute_importing]
    rfl
  have hkeys : afterImporting.cache.enabled = true → starring.KeysApart := by
    simp [afterImporting]
  let q : Query := .source (.bound "sub") importing
  have hq : afterImporting.modules.get? (starring.files.absolute q.module.path) = some q.module :=
    hheld
  obtain ⟨r, τ, hfollow, hlater, hiff⟩ := default_unresolved_iff keyed_afterImporting hq hkeys
  have hasks := asksDefault_importing hlater
  exact ⟨keyed_afterImporting, hheld, hkeys, r, τ, hfollow, hasks, default_passing,
    hiff passing hasks default_passing⟩

end starring

end CommandCoverage
