import CommandCoverage.Proofs.Discovery.Simulation

namespace CommandCoverage

open Script Analysis CacheKey

def Workspace.TrustsAt (w : Workspace) (cache : ParseCache Float Node) (path : String) : Prop :=
  ∀ source, w.files.read w.maxFileSize path = .ok source →
    ∀ now tree, (cache.get now (w.cacheKey path source.content)).1 = some tree →
      parseFile path source.content = some tree

/-- A cache that is off, or that keeps only trees of sources that have keys of their own. -/
def Workspace.Trusts (w : Workspace) (cache : ParseCache Float Node) : Prop :=
  cache.enabled = false ∨ ∃ sources, w.Apart sources ∧ cache.Keeps (IsTree sources)

/-- What parsing a content gives without a cache. -/
def parsed (path content : String) : Except Failure Node :=
  match parseFile path content with
  | none => .error (.unparseable path 1 1 "" "syntax error")
  | some tree => .ok tree

variable {w : Workspace} {cache : ParseCache Float Node} {σ τ : Session} {path : String}
  {source : SourceText} {tree : Node}

theorem readFault?_eq_unseen_iff {t : FileTree} {limit : Nat} {e : SystemFault} :
    t.readFault? limit path = .error (.unseen e) ↔
      t.lookFault? (FileTree.plainPath path) = some e := by
  have hseen (h : t.lookFault? (FileTree.plainPath path) = some e) :
      t.get? (FileTree.plainPath path) = none := by
    unfold FileTree.lookFault? at h
    unfold FileTree.get?
    split at h
    · rfl
    · cases h
  unfold FileTree.readFault?
  split
  · cases t.lookFault? (FileTree.plainPath path) <;> simp
  · rename_i hget
    have hnot : ¬t.lookFault? (FileTree.plainPath path) = some e := fun h ↦ by
      rw [hseen h] at hget
      cases hget
    refine iff_of_false ?_ hnot
    split
    · nofun
    · split
      · nofun
      · split
        · nofun
        · nofun
        · split <;> nofun
  · rename_i hget
    refine iff_of_false nofun fun h ↦ ?_
    rw [hseen h] at hget
    cases hget

/-- A file that cannot be read is named by the failure, unless looking it up is an error. -/
theorem read_eq_error {f : Failure} (h : w.files.read w.maxFileSize path = .error f) :
    (∃ reason suggestions, f = .unreadable path reason suggestions) ∨
      ∃ e, w.files.lookFault? (FileTree.plainPath path) = some e ∧
        f = e.failure (FileTree.plainPath path) := by
  unfold FileTree.read at h
  cases hr : w.files.readFault? w.maxFileSize path with
  | ok source => simp [hr, Except.mapError] at h
  | error fault =>
    rw [hr] at h
    obtain rfl := Except.error.inj h
    cases fault with
    | unseen e => exact .inr ⟨e, readFault?_eq_unseen_iff.1 hr, rfl⟩
    | missing | notFile | tooLarge | notText | denied | broken => exact .inl ⟨_, _, rfl⟩

theorem Workspace.eq_unexpected_of_keyFailure? {cached : Bool} {f : Failure}
    (h : w.keyFailure? cached path = some f) :
    ∃ message, f = .unexpected "UnicodeEncodeError" message := by
  unfold keyFailure? at h
  split at h
  · obtain ⟨fault, -, rfl⟩ := Option.map_eq_some_iff.1 h
    exact ⟨_, rfl⟩
  · cases h

theorem trustsAt_of_lacks
    (h : ∀ source, w.files.read w.maxFileSize path = .ok source →
      cache.Lacks (w.cacheKey path source.content)) : w.TrustsAt cache path := by
  intro source hr now tree hg
  rw [ParseCache.get_of_lacks (h source hr)] at hg
  cases hg

namespace Workspace.Trusts

theorem trustsAt (h : w.Trusts cache) (path : String) : w.TrustsAt cache path := by
  intro source hr now tree hg
  rcases h with hoff | ⟨sources, hw, hk⟩
  · rw [ParseCache.get_of_disabled hoff] at hg
    cases hg
  · exact hw.parseFile_eq hr (hk.good_of_get hg)

theorem get (h : w.Trusts cache) (now : Float) (key : String) :
    w.Trusts (cache.get now key).2 := by
  rcases h with hoff | ⟨sources, hw, hk⟩
  · exact .inl (ParseCache.enabled_get.trans hoff)
  · exact .inr ⟨sources, hw, hk.get now key⟩

theorem set (h : w.Trusts cache) (hr : w.files.read w.maxFileSize path = .ok source)
    (hp : parseFile path source.content = some tree) (now : Float) :
    w.Trusts (cache.set now (w.cacheKey path source.content) tree) := by
  rcases h with hoff | ⟨sources, hw, hk⟩
  · exact .inl (ParseCache.enabled_set.trans hoff)
  · exact .inr ⟨sources, hw, hk.set now (hw.isTree hr hp)⟩

end Workspace.Trusts

theorem parse_eq (h : w.TrustsAt σ.cache path)
    (hr : w.files.read w.maxFileSize path = .ok source) :
    ((parse w path source.content).run σ).1 = parsed path source.content := by
  have hgiven := h source hr (w.clock σ.readings)
  rw [parse_run, parsed]
  rcases hc : σ.cache.get (w.clock σ.readings) (w.cacheKey path source.content) with ⟨_ | tree, cache⟩
  · cases parseFile path source.content <;> rfl
  · rw [hgiven tree (congrArg Prod.fst hc)]

theorem enabled_parse (w : Workspace) (path content : String) (σ : Session) :
    ((parse w path content).run σ).2.cache.enabled = σ.cache.enabled := by
  have hget : (σ.cache.get (w.clock σ.readings) (w.cacheKey path content)).2.enabled =
      σ.cache.enabled := ParseCache.enabled_get
  rw [parse_run]
  rcases hc : σ.cache.get (w.clock σ.readings) (w.cacheKey path content) with ⟨_ | tree, cache⟩
  · rw [hc] at hget
    cases parseFile path content with
    | none => exact hget
    | some tree => exact ParseCache.enabled_set.trans hget
  · rw [hc] at hget
    exact hget

theorem trusts_parse (h : w.Trusts σ.cache)
    (hr : w.files.read w.maxFileSize path = .ok source) :
    w.Trusts ((parse w path source.content).run σ).2.cache := by
  have hkept := h.get (w.clock σ.readings) (w.cacheKey path source.content)
  rw [parse_run]
  rcases hc : σ.cache.get (w.clock σ.readings) (w.cacheKey path source.content) with ⟨_ | tree, cache⟩
  · rw [hc] at hkept
    cases hp : parseFile path source.content with
    | none => exact hkept
    | some tree => exact hkept.set hr hp _
  · rw [hc] at hkept
    exact hkept

theorem load_run_fst (h : w.TrustsAt σ.cache path)
    (hr : w.files.read w.maxFileSize path = .ok source)
    (hm : σ.modules.get? (w.files.absolute path) = none) :
    ((load w path).run σ).1 = (parsed path source.content).map (.ofRoot path) := by
  rw [load_run, hm, hr, ← parse_eq h hr]
  dsimp only
  rcases (parse w path source.content).run σ with ⟨f | tree, τ⟩ <;> rfl

theorem Loads.trusts {r : Except Failure Module} (hl : Loads w path σ r τ) (h : w.Trusts σ.cache) :
    w.Trusts τ.cache := by
  have hkept {content : String} {x : Option Node} {c : ParseCache Float Node}
      (hc : σ.cache.get (w.clock σ.readings) (w.cacheKey path content) = (x, c)) : w.Trusts c := by
    have hget := h.get (w.clock σ.readings) (w.cacheKey path content)
    rwa [hc] at hget
  cases hl with
  | known | unreadable => exact h
  | cached hm hr hc => exact hkept hc
  | faulty hm hr hc hp => exact hkept hc
  | parsed hm hr hc hp => exact (hkept hc).set hr hp _

theorem Loads.get?_of_ne {r : Except Failure Module} {k : String} (hl : Loads w path σ r τ)
    (hk : k ≠ w.files.absolute path) : τ.modules.get? k = σ.modules.get? k := by
  cases hl with
  | known | unreadable | faulty => rfl
  | cached | parsed => exact (Table.get?_set _).trans (if_neg hk)

end CommandCoverage
