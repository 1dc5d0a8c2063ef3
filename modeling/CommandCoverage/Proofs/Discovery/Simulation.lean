import CommandCoverage.Proofs.Cache.Keys
import CommandCoverage.Proofs.Discovery.Building
import CommandCoverage.Proofs.Files.Reading

namespace CommandCoverage

open Script Analysis CacheKey

/-- The sources that can be read, each with its normalized absolute path. -/
def Workspace.sources (w : Workspace) : Set Pair :=
  {x | ∃ path source, w.files.read w.maxFileSize path = .ok source ∧
    x = (Path.normalize (w.files.absolute path), source.content)}

structure Workspace.Apart (w : Workspace) (sources : Set Pair) : Prop where
  subset : w.sources ⊆ sources
  injOn : Set.InjOn (fun x ↦ ofNormalized x.1 x.2) sources

def IsTree (sources : Set Pair) (key : String) (tree : Node) : Prop :=
  ∀ x ∈ sources, ofNormalized x.1 x.2 = key → parseFile x.1 x.2 = some tree

/-- Two sessions with the same modules and warnings. The cache of the first keeps the right trees, if
it is on, and that of the second is off. -/
structure Alike (sources : Set Pair) (cached : Bool) (σ τ : Session) : Prop where
  modules : σ.modules = τ.modules
  warnings : σ.warnings = τ.warnings
  notices : σ.notices = τ.notices
  keeps : cached = true → σ.cache.Keeps (IsTree sources)
  enabled : σ.cache.enabled = cached
  disabled : τ.cache.enabled = false

def Oblivious {α : Type} (sources : Set Pair) (cached : Bool) (x : Analysis α) : Prop :=
  ∀ σ τ, Alike sources cached σ τ →
    (x.run σ).1 = (x.run τ).1 ∧ Alike sources cached (x.run σ).2 (x.run τ).2

variable {sources : Set Pair} {cached : Bool} {w : Workspace} {σ σ' τ : Session} {α β : Type}

namespace Oblivious

variable {x : Analysis α} {f : α → Analysis β}

theorem pure (a : α) : Oblivious sources cached (Pure.pure a : Analysis α) :=
  fun _ _ h ↦ ⟨rfl, h⟩

theorem bind (hx : Oblivious sources cached x) (hf : ∀ a, Oblivious sources cached (f a)) :
    Oblivious sources cached (x >>= f) := by
  intro σ τ h
  obtain ⟨hvalue, hstates⟩ := hx σ τ h
  rw [run_bind, run_bind, ← hvalue]
  exact hf _ _ _ hstates

theorem exists_run {a : α} (hx : Oblivious sources cached x) (h : Alike sources cached σ τ)
    (he : x.run σ = (a, σ')) : ∃ τ', x.run τ = (a, τ') ∧ Alike sources cached σ' τ' := by
  obtain ⟨hvalue, hstates⟩ := hx σ τ h
  rw [he] at hvalue hstates
  exact ⟨(x.run τ).2, Prod.ext hvalue.symm rfl, hstates⟩

theorem outcome [Inhabited α] {x : Unbounded α}
    (h : ∀ σ τ, Alike sources cached σ τ →
      ∃ a σ' τ', x σ = some (a, σ') ∧ x τ = some (a, τ') ∧ Alike sources cached σ' τ') :
    Oblivious sources cached x.outcome := by
  intro σ τ ha
  obtain ⟨a, σ', τ', hσ, hτ, ha'⟩ := h σ τ ha
  rw [Unbounded.outcome_run, Unbounded.outcome_run, hσ, hτ]
  exact ⟨rfl, ha'⟩

theorem firstSome {f : α → Analysis (Option β)} (hf : ∀ a, Oblivious sources cached (f a))
    (as : List α) :
    Oblivious sources cached (Analysis.firstSome f as) := by
  induction as with
  | nil => exact pure none
  | cons a as ih =>
    refine (hf a).bind fun r ↦ ?_
    cases r with
    | none => exact ih
    | some b => exact pure (some b)

theorem foldlM {f : β → α → Analysis β} (hf : ∀ b a, Oblivious sources cached (f b a)) (as : List α)
    (b : β) : Oblivious sources cached (as.foldlM f b) := by
  induction as generalizing b with
  | nil => exact pure b
  | cons a as ih =>
    rw [List.foldlM_cons]
    exact (hf b a).bind fun b ↦ ih b

theorem mapM {f : α → Analysis β} (hf : ∀ a, Oblivious sources cached (f a)) (as : List α) :
    Oblivious sources cached (as.mapM f) := by
  induction as with
  | nil => exact pure []
  | cons a as ih =>
    rw [List.mapM_cons]
    exact (hf a).bind fun b ↦ ih.bind fun bs ↦ pure (b :: bs)

theorem forM {f : α → Analysis PUnit} (hf : ∀ a, Oblivious sources cached (f a)) (as : List α) :
    Oblivious sources cached (as.forM f) := by
  induction as with
  | nil => exact pure PUnit.unit
  | cons a as ih => exact (hf a).bind fun _ ↦ ih

end Oblivious

section loading

variable {p : String} {source : SourceText} {content : String}

theorem mem_sources (hr : w.files.read w.maxFileSize p = .ok source) :
    (Path.normalize (w.files.absolute p), source.content) ∈ w.sources :=
  ⟨p, source, hr, rfl⟩

theorem parseFile_normalize (hr : w.files.read w.maxFileSize p = .ok source) (content : String) :
    parseFile (Path.normalize (w.files.absolute p)) content = parseFile p content := by
  obtain ⟨bytes, hget, -⟩ := read_eq_ok_iff.1 hr
  have hl := FileTree.lastPart_normalize_absolute hget
  simp [parseFile, Dialect.ofPath, Path.suffix, hl]

/-- A file that is alone in its tree is one source by a slash, and another one by two. -/
theorem mem_of_single {name : String} {bytes : List UInt8} {x : Pair} {s : Text.Surrogates}
    (hw : w.files = { FileTree.single name bytes with surrogates := s })
    (hc : Text.decodeUtf8 bytes = .ok content) (hx : x ∈ w.sources) :
    x ∈ [(Path.normalize ("/" ++ name), content), (Path.normalize ("//" ++ name), content)] := by
  obtain ⟨p, source, hr, rfl⟩ := hx
  have hsame : w.files.absolute p = (FileTree.single name bytes).absolute p := by
    rw [hw]
    rfl
  rw [hw] at hr
  obtain ⟨read, hget, -, hd, -⟩ := read_eq_ok_iff.1 hr
  have hsingle : (FileTree.single name bytes).get? (FileTree.plainPath p) = some (.file read) := hget
  obtain ⟨rfl, habs⟩ := FileTree.absolute_single hsingle
  obtain rfl := Except.ok.inj (hd.symm.trans hc)
  rw [hsame]
  rcases List.mem_pair.1 habs with habs | habs <;> simp [habs]

theorem Workspace.cacheKey_eq (w : Workspace) (p content : String) :
    w.cacheKey p content = ofNormalized (Path.normalize (w.files.absolute p)) content := by
  rw [cacheKey, CacheKey.of]

theorem Workspace.Apart.isTree {tree : Node} (hw : w.Apart sources)
    (hr : w.files.read w.maxFileSize p = .ok source) (hp : parseFile p source.content = some tree) :
    IsTree sources (w.cacheKey p source.content) tree := by
  intro x hx hkey
  rw [w.cacheKey_eq] at hkey
  obtain rfl := hw.injOn hx (hw.subset (mem_sources hr)) hkey
  exact (parseFile_normalize hr _).trans hp

theorem Workspace.Apart.parseFile_eq {tree : Node} (hw : w.Apart sources)
    (hr : w.files.read w.maxFileSize p = .ok source)
    (ht : IsTree sources (w.cacheKey p source.content) tree) :
    parseFile p source.content = some tree := by
  have htree := ht _ (hw.subset (mem_sources hr)) (w.cacheKey_eq p source.content).symm
  exact (parseFile_normalize hr _).symm.trans htree

theorem oblivious_parse (hw : w.Apart sources) (hr : w.files.read w.maxFileSize p = .ok source) :
    Oblivious sources cached (parse w p source.content) := by
  intro σ τ h
  have hkeeps (hc : cached = true) :=
    (h.keeps hc).get (w.clock σ.readings) (w.cacheKey p source.content)
  have henabled : (σ.cache.get (w.clock σ.readings) (w.cacheKey p source.content)).2.enabled =
      cached := ParseCache.enabled_get.trans h.enabled
  rw [parse_run, parse_run, ParseCache.get_of_disabled h.disabled]
  rcases hc : σ.cache.get (w.clock σ.readings) (w.cacheKey p source.content) with ⟨_ | tree, cache⟩
  · rw [hc] at hkeeps henabled
    cases hp : parseFile p source.content with
    | none => exact ⟨rfl, h.modules, h.warnings, h.notices, hkeeps, henabled, h.disabled⟩
    | some tree =>
      have hset (hc : cached = true) :=
        (hkeeps hc).set (w.clock (σ.readings + 1)) (hw.isTree hr hp)
      exact ⟨rfl, h.modules, h.warnings, h.notices, hset, ParseCache.enabled_set.trans henabled,
        ParseCache.enabled_set.trans h.disabled⟩
  · -- A cache that gives something is on, and what it gives is what the parser gives, too.
    have hon : cached = true := by
      by_contra hoff
      rw [ParseCache.get_of_disabled (h.enabled.trans (Bool.eq_false_iff.2 hoff))] at hc
      cases hc
    have hp := hw.parseFile_eq hr ((h.keeps hon).good_of_get (congrArg Prod.fst hc))
    rw [hc] at hkeeps henabled
    rw [hp]
    exact ⟨rfl, h.modules, h.warnings, h.notices, hkeeps, henabled,
      ParseCache.enabled_set.trans h.disabled⟩

theorem oblivious_load (hw : w.Apart sources) (p : String) : Oblivious sources cached (load w p) := by
  intro σ τ h
  rw [load_run, load_run, ← h.modules]
  cases σ.modules.get? (w.files.absolute p) with
  | some m => exact ⟨rfl, h⟩
  | none =>
    cases hr : w.files.read w.maxFileSize p with
    | error f => exact ⟨rfl, h⟩
    | ok source =>
      rcases hσ : (parse w p source.content).run σ with ⟨r, σ'⟩
      obtain ⟨τ', hτ, h'⟩ := (oblivious_parse hw hr).exists_run h hσ
      dsimp only
      rw [hσ, hτ]
      cases r with
      | error f => exact ⟨rfl, h'⟩
      | ok root =>
        exact ⟨rfl, congrArg (fun t : Table Module ↦ t.set _ _) h'.modules, h'.warnings, h'.notices,
          h'.keeps, h'.enabled, h'.disabled⟩

theorem Loads.alike {r : Except Failure Module} (hw : w.Apart sources) (hl : Loads w p σ r σ')
    (h : Alike sources cached σ τ) : ∃ τ', Loads w p τ r τ' ∧ Alike sources cached σ' τ' := by
  obtain ⟨τ', hrun, h'⟩ := (oblivious_load hw p).exists_run h hl.run
  have hloads := loads_load w p τ
  rw [hrun] at hloads
  exact ⟨τ', hloads, h'⟩

end loading

section resolving

variable {localOnly : Bool} {passed : List Passed} {q : Query} {r : Except Unresolved Located}

theorem Follows.alike (hw : w.Apart sources) (hf : Follows w localOnly passed q σ r σ')
    (h : Alike sources cached σ τ) :
    ∃ τ', Follows w localOnly passed q τ r τ' ∧ Alike sources cached σ' τ' := by
  induction hf generalizing τ with
  | answer ha => exact ⟨τ, .answer ha, h⟩
  | move hm _ ih =>
    obtain ⟨τ', hf', h'⟩ := ih h
    exact ⟨τ', .move hm hf', h'⟩
  | binding hb hp _ ih =>
    obtain ⟨τ', hf', h'⟩ := ih h
    exact ⟨τ', .binding hb hp hf', h'⟩
  | unloadable hleads hp hl =>
    obtain ⟨τ', hl', h'⟩ := hl.alike hw h
    exact ⟨τ', .unloadable hleads hp hl', h'⟩
  | imported hleads hp hl _ ih =>
    obtain ⟨υ, hl', hυ⟩ := hl.alike hw h
    obtain ⟨τ', hf', h'⟩ := ih hυ
    exact ⟨τ', .imported hleads hp hl' hf', h'⟩
  | star _ ih =>
    obtain ⟨τ', hf', h'⟩ := ih h
    exact ⟨τ', .star hf', h'⟩
  | nextStar _ _ ih ih' =>
    obtain ⟨υ, hf₁, hυ⟩ := ih h
    obtain ⟨τ', hf₂, h'⟩ := ih' hυ
    exact ⟨τ', .nextStar hf₁ hf₂, h'⟩

theorem oblivious_follow (hw : w.Apart sources) (localOnly : Bool) (passed : List Passed)
    (q : Query) : Oblivious sources cached (Unbounded.follow w localOnly passed q).outcome := by
  refine .outcome fun σ τ h ↦ ?_
  obtain ⟨r, σ', hf⟩ := exists_follows w localOnly passed q σ
  obtain ⟨τ', hf', h'⟩ := hf.alike hw h
  exact ⟨r, σ', τ', hf.eval, hf'.eval, h'⟩

theorem oblivious_resolve (hw : w.Apart sources) (s : Source) (m : Module) (localOnly : Bool) :
    Oblivious sources cached (resolve w s m localOnly) :=
  oblivious_follow hw localOnly [] (.source s m)

theorem oblivious_resolveExport (hw : w.Apart sources) (name : String) (m : Module) :
    Oblivious sources cached (resolveExport w name m) :=
  oblivious_follow hw false [] (.exported name m)

theorem oblivious_spreadWithin (hw : w.Apart sources) (steps : Nat) (q : SpreadQuery) :
    Oblivious sources cached (spreadWithin w steps q) := by
  induction steps generalizing q with
  | zero =>
    cases q with
    | value v m => exact .pure _
    | imported i fromFile => exact .pure _
  | succ steps ih =>
    cases q with
    | value v m =>
      rw [spreadWithin.eq_def]
      dsimp only
      split
      · exact .pure _
      · exact .pure _
      · split
        · exact ih _
        · exact .pure _
    | imported i fromFile =>
      rw [spreadWithin]
      split
      · exact .pure _
      · refine (oblivious_load hw _).bind fun r ↦ ?_
        split
        · exact .pure _
        · split
          · exact .firstSome (fun _ ↦ ih _) _
          · exact ih _
          · split <;> exact ih _
          · exact ih _

theorem oblivious_spread (hw : w.Apart sources) (v : Node) (m : Module) :
    Oblivious sources cached (spread w v m) :=
  oblivious_spreadWithin hw _ _

end resolving

section building

variable {command : String} {seen above : List Identity} {m : Module} {members : List Member}
  {as : List Arg} {ws : List Warning} {d : Located} {j : Job} {c : Command}

theorem Alike.warned (h : Alike sources cached σ τ) (x : Warning) :
    Alike sources cached (σ.warned x) (τ.warned x) :=
  ⟨h.modules, congrArg (· ++ [x]) h.warnings, congrArg (· ++ [(Stage.commands, x)]) h.notices,
    h.keeps, h.enabled, h.disabled⟩

theorem Flattens.alike (hw : w.Apart sources) (hf : Flattens w command seen m members σ as ws σ')
    (h : Alike sources cached σ τ) :
    ∃ τ', Flattens w command seen m members τ as ws τ' ∧ Alike sources cached σ' τ' := by
  induction hf generalizing τ with
  | nil => exact ⟨τ, .nil, h⟩
  | expanded hform hs hn _ _ ih ih' =>
    obtain ⟨τ₁, hs', h₁⟩ := (oblivious_spread hw _ _).exists_run h hs
    obtain ⟨τ₂, hf', h₂⟩ := ih h₁
    obtain ⟨τ', hr', h'⟩ := ih' h₂
    exact ⟨τ', .expanded hform hs' hn hf' hr', h'⟩
  | stuck hform hs hn hx _ ih =>
    obtain ⟨τ₁, hs', h₁⟩ := (oblivious_spread hw _ _).exists_run h hs
    obtain ⟨τ', hr', h'⟩ := ih (h₁.warned _)
    exact ⟨τ', .stuck hform hs' hn hx hr', h'⟩
  | computed hform hn hx _ ih =>
    obtain ⟨τ', hr', h'⟩ := ih (h.warned _)
    exact ⟨τ', .computed hform hn hx hr', h'⟩
  | named hform hn _ ih =>
    obtain ⟨τ', hr', h'⟩ := ih h
    exact ⟨τ', .named hform hn hr', h'⟩

theorem ReadsArgs.alike (hw : w.Apart sources) (ha : ReadsArgs w command d σ as ws σ')
    (h : Alike sources cached σ τ) :
    ∃ τ', ReadsArgs w command d τ as ws τ' ∧ Alike sources cached σ' τ' := by
  cases ha with
  | none hn => exact ⟨τ, .none hn, h⟩
  | notStatic hv ho hx => exact ⟨_, .notStatic hv ho hx, h.warned _⟩
  | literal hv ho hf =>
    obtain ⟨τ', hf', h'⟩ := hf.alike hw h
    exact ⟨τ', .literal hv ho hf', h'⟩

theorem oblivious_register (m : Module) (n : Node) (key : String) (c child : Command) :
    Oblivious sources cached (register m n key c child) := by
  intro σ τ h
  rw [register_run, register_run]
  split
  · exact ⟨rfl, h.warned _⟩
  · exact ⟨rfl, h⟩

theorem Builds.alike (hw : w.Apart sources) (hb : Builds w above j σ c σ')
    (h : Alike sources cached σ τ) : ∃ τ', Builds w above j τ c τ' ∧ Alike sources cached σ' τ' := by
  induction hb generalizing τ with
  | bare ha hv =>
    obtain ⟨τ', ha', h'⟩ := ha.alike hw h
    exact ⟨τ', .bare ha' hv, h'⟩
  | notStatic ha hv ho hx =>
    obtain ⟨τ', ha', h'⟩ := ha.alike hw h
    exact ⟨_, .notStatic ha' hv ho hx, h'.warned _⟩
  | literal ha hv ho _ ih =>
    obtain ⟨τ₁, ha', h₁⟩ := ha.alike hw h
    obtain ⟨τ', hb', h'⟩ := ih h₁
    exact ⟨τ', .literal ha' hv ho hb', h'⟩
  | nil => exact ⟨τ, .nil, h⟩
  | unnamed hn hx _ ih =>
    obtain ⟨τ', hr', h'⟩ := ih (h.warned _)
    exact ⟨τ', .unnamed hn hx hr', h'⟩
  | named hn _ hreg _ ih ih' =>
    obtain ⟨τ₁, hb', h₁⟩ := ih h
    obtain ⟨τ₂, hreg', h₂⟩ := (oblivious_register _ _ _ _ _).exists_run h₁ hreg
    obtain ⟨τ', hr', h'⟩ := ih' h₂
    exact ⟨τ', .named hn hb' hreg' hr', h'⟩
  | unresolved hf hx =>
    obtain ⟨τ', hf', h'⟩ := hf.alike hw h
    exact ⟨_, .unresolved hf' hx, h'.warned _⟩
  | cyclic hf hc hx =>
    obtain ⟨τ', hf', h'⟩ := hf.alike hw h
    exact ⟨_, .cyclic hf' hc hx, h'.warned _⟩
  | resolved hf hc _ ih =>
    obtain ⟨τ₁, hf', h₁⟩ := hf.alike hw h
    obtain ⟨τ', hb', h'⟩ := ih h₁
    exact ⟨τ', .resolved hf' hc hb', h'⟩

theorem oblivious_build (hw : w.Apart sources) (above : List Identity) (t : Task) :
    Oblivious sources cached (Unbounded.build w above t).outcome := by
  refine .outcome fun σ τ h ↦ ?_
  obtain ⟨c, σ', hb⟩ := exists_builds w above t σ
  obtain ⟨τ', hb', h'⟩ := hb.alike hw h
  exact ⟨c, σ', τ', hb.eval, hb'.eval, h'⟩

end building

end CommandCoverage
