import CommandCoverage.Discovery.Root
import CommandCoverage.Proofs.Discovery.Args
import CommandCoverage.Proofs.Script.Walk
import Mathlib.Data.Finset.Max

namespace CommandCoverage

open Script Analysis Node

variable {w : Workspace} {m : Module} {σ τ υ : Session} {q : Query} {qs : List Query}
  {passed : List Passed} {r : Except Unresolved Located} {root : Option Located} {d e n : Node}

/-- What may lead to the main command: the first arguments of the calls of runners, then the default
export. -/
def Script.Module.candidates (m : Module) : List Query :=
  (((calls m).filter fun c ↦ c.calleeName.any mainRunners.contains).filterMap
      (·.arguments.head?)).map (fun arg ↦ .source (m.classify (some arg)) m) ++
    if m.exports.contains "default" then [.exported "default" m] else []

inductive Tries (w : Workspace) : List Query → Session → Option Located → Session → Prop
  | none {σ : Session} : Tries w [] σ none σ
  | skipped {q : Query} {qs : List Query} {why : Unresolved} {root : Option Located}
      {σ τ υ : Session} (hf : Follows w false [] q σ (.error why) τ) (h : Tries w qs τ root υ) :
      Tries w (q :: qs) σ root υ
  | found {q : Query} {qs : List Query} {l : Located} {σ τ : Session}
      (hf : Follows w false [] q σ (.ok l) τ) : Tries w (q :: qs) σ (some l) τ

def Script.Module.outermost (m : Module) : List Node :=
  (writtenDefinitions m).filter fun d ↦ !(writtenDefinitions m).any (isInside d)

/-- Within its module, a definition registers the definition at a place as a subcommand. -/
def RegistersAt (w : Workspace) (m : Module) (d : Node) (place : Nat) : Prop :=
  ∃ subs, m.object (d.get? "subCommands") = some subs ∧
    ∃ s ∈ subs.members, (s.form = .pair ∨ s.form = .shorthand) ∧
      ∃ l, (∀ σ, Follows w true [] (.source (m.classify (some s.node)) m) σ (.ok l) σ) ∧
        l.object.start = place

structure Free (w : Workspace) (m : Module) (d : Node) : Prop where
  outermost : d ∈ m.outermost
  unregistered : ∀ e ∈ m.outermost, ¬RegistersAt w m e d.start

/-- The definition to fall back on: the first that is free, else the first outermost one. -/
inductive FallsBack (w : Workspace) (m : Module) : Node → Prop
  | free {before after : List Node} {d : Node} (he : m.outermost = before ++ d :: after)
      (hf : Free w m d) (hb : ∀ e ∈ before, ¬Free w m e) : FallsBack w m d
  | first {d : Node} (hd : m.outermost.head? = some d) (hn : ∀ e ∈ m.outermost, ¬Free w m e) :
      FallsBack w m d

inductive Chooses (w : Workspace) (m : Module) (σ : Session) : Option Located → Session → Prop
  | candidate {l : Located} {τ : Session} (h : Tries w m.candidates σ (some l) τ) :
      Chooses w m σ (some l) τ
  | written {d : Node} {τ : Session} (h : Tries w m.candidates σ none τ) (hd : FallsBack w m d) :
      Chooses w m σ (some ⟨d, m⟩) τ
  | nothing {τ : Session} (h : Tries w m.candidates σ none τ) (hd : writtenDefinitions m = []) :
      Chooses w m σ none τ

section trying

theorem exists_tries (w : Workspace) (qs : List Query) (σ : Session) :
    ∃ root τ, Tries w qs σ root τ := by
  induction qs generalizing σ with
  | nil => exact ⟨_, _, .none⟩
  | cons q qs ih =>
    obtain ⟨r, τ, hf⟩ := exists_follows w false [] q σ
    cases r with
    | ok l => exact ⟨_, _, .found hf⟩
    | error why =>
      obtain ⟨root, υ, h⟩ := ih τ
      exact ⟨root, υ, .skipped hf h⟩

theorem Follows.resolve_run {s : Source} {localOnly : Bool}
    (h : Follows w localOnly [] (.source s m) σ r τ) : (resolve w s m localOnly).run σ = (r, τ) := by
  rw [resolve, Unbounded.outcome_run, h.eval]
  rfl

theorem Follows.resolveExport_run {name : String}
    (h : Follows w false [] (.exported name m) σ r τ) :
    (resolveExport w name m).run σ = (r, τ) := by
  rw [resolveExport, Unbounded.outcome_run, h.eval]
  rfl

theorem Tries.append_cases {qs' : List Query} (h : Tries w (qs ++ qs') σ root υ) :
    (∃ l, root = some l ∧ Tries w qs σ (some l) υ) ∨
      ∃ τ, Tries w qs σ Option.none τ ∧ Tries w qs' τ root υ := by
  induction qs generalizing σ with
  | nil => exact .inr ⟨σ, .none, h⟩
  | cons q qs ih =>
    cases h with
    | found hf => exact .inl ⟨_, rfl, .found hf⟩
    | skipped hf h =>
      rcases ih h with ⟨l, hl, h'⟩ | ⟨τ, h', hrest⟩
      · exact .inl ⟨l, hl, .skipped hf h'⟩
      · exact .inr ⟨τ, .skipped hf h', hrest⟩

theorem Tries.unique {root' : Option Located} (h : Tries w qs σ root τ) (h' : Tries w qs σ root' υ) :
    root = root' ∧ τ = υ := by
  induction h with
  | none =>
    cases h'
    exact ⟨rfl, rfl⟩
  | skipped hf _ ih =>
    cases h' with
    | skipped hf' h' =>
      obtain ⟨-, rfl⟩ := Prod.mk.inj (Option.some_inj.1 (hf.eval.symm.trans hf'.eval))
      exact ih h'
    | found hf' => cases Option.some_inj.1 (hf.eval.symm.trans hf'.eval)
  | found hf =>
    cases h' with
    | skipped hf' => cases Option.some_inj.1 (hf.eval.symm.trans hf'.eval)
    | found hf' =>
      cases Option.some_inj.1 (hf.eval.symm.trans hf'.eval)
      exact ⟨rfl, rfl⟩

theorem Tries.handed {args : List Node}
    (h : Tries w (args.map fun arg ↦ .source (m.classify (some arg)) m) σ root τ) :
    (firstSome (fun arg ↦ do return (← resolve w (m.classify (some arg)) m).toOption) args).run σ =
      (root, τ) := by
  induction args generalizing σ with
  | nil =>
    cases h
    rfl
  | cons arg args ih =>
    rw [firstSome, run_bind, run_bind]
    cases h with
    | found hf =>
      rw [hf.resolve_run]
      rfl
    | skipped hf h =>
      rw [hf.resolve_run]
      exact ih h

end trying

section fallingBack

variable {α β : Type}

theorem foldlM_run {f : β → α → Analysis β} {g : β → α → β} (h : ∀ b a σ, (f b a).run σ = (g b a, σ))
    (as : List α) (b : β) (σ : Session) : (as.foldlM f b).run σ = (as.foldl g b, σ) := by
  induction as generalizing b with
  | nil => rfl
  | cons a as ih => rw [List.foldlM_cons, run_bind, h, ih, List.foldl_cons]

theorem mapM_run {f : α → Analysis β} {g : α → β} (h : ∀ a σ, (f a).run σ = (g a, σ)) (as : List α)
    (σ : Session) : (as.mapM f).run σ = (as.map g, σ) := by
  induction as with
  | nil => rfl
  | cons a as ih =>
    rw [List.mapM_cons, run_bind, h, run_bind, ih]
    rfl

theorem Follows.of_local (h : Follows w true passed q σ r τ) (σ' : Session) :
    Follows w true passed q σ' r σ' := by
  generalize hl : true = localOnly at h ⊢
  induction h with
  | answer h => exact .answer h
  | move h _ ih => exact .move h ih
  | binding h hp _ ih => exact .binding h hp ih
  | unloadable h => exact absurd (hl.trans h.allowed) (by decide)
  | imported h => exact absurd (hl.trans h.allowed) (by decide)
  | star _ ih => exact .star ih
  | nextStar _ _ ih ih' => exact .nextStar ih ih'

theorem exists_follows_local (w : Workspace) (q : Query) :
    ∃ r, ∀ σ, Follows w true [] q σ r σ := by
  obtain ⟨r, τ, h⟩ := exists_follows w true [] q { cache := { ttl := 0, maxSize := 0 } }
  exact ⟨r, h.of_local⟩

theorem exists_registeredBy (w : Workspace) (m : Module) (d : Node) :
    ∃ places, (∀ σ, (registeredBy w m d).run σ = (places, σ)) ∧
      ∀ place, place ∈ places ↔ RegistersAt w m d place := by
  unfold registeredBy RegistersAt
  cases m.object (d.get? "subCommands") with
  | none => exact ⟨[], fun _ ↦ rfl, by simp⟩
  | some subs =>
    choose r hr using fun s : Member ↦ exists_follows_local w (.source (m.classify (some s.node)) m)
    let place (s : Member) : List Nat := (r s).toOption.toList.map (·.object.start)
    have hplace (s : Member) (p : Nat) : p ∈ place s ↔
        ∃ l, (∀ σ, Follows w true [] (.source (m.classify (some s.node)) m) σ (.ok l) σ) ∧
          l.object.start = p := by
      have hsame (l : Located) (σ : Session)
          (hl : Follows w true [] (.source (m.classify (some s.node)) m) σ (.ok l) σ) :
          r s = .ok l := (Prod.mk.inj (Option.some_inj.1 ((hr s σ).eval.symm.trans hl.eval))).1
      constructor
      · intro hp
        obtain ⟨l, hl, rfl⟩ := List.mem_map.1 hp
        have hok : r s = .ok l := by
          cases h : r s <;> simp_all [Except.toOption]
        exact ⟨l, fun σ ↦ hok ▸ hr s σ, rfl⟩
      · rintro ⟨l, hl, rfl⟩
        have hok := hsame l { cache := { ttl := 0, maxSize := 0 } } (hl _)
        exact List.mem_map.2 ⟨l, by simp [hok, Except.toOption], rfl⟩
    refine ⟨_, fun σ ↦ foldlM_run (g := fun places s ↦ places ++ place s) (fun places s σ ↦ ?_) _ [] σ,
      fun p ↦ ?_⟩
    · rw [run_bind, (hr s σ).resolve_run]
      cases h : r s <;> simp [place, h, Except.toOption] <;> rfl
    · have hfold (members : List Member) (before : List Nat) :
          p ∈ members.foldl (fun places s ↦ places ++ place s) before ↔
            p ∈ before ∨ ∃ s ∈ members, p ∈ place s := by
        induction members generalizing before with
        | nil => simp
        | cons s members ih =>
          rw [List.foldl_cons, ih, List.mem_append, or_assoc, List.exists_mem_cons_iff]
      rw [hfold]
      simp [hplace, and_assoc]

theorem outermost_eq_nil_iff : m.outermost = [] ↔ writtenDefinitions m = [] := by
  refine ⟨fun h ↦ ?_, fun h ↦ by rw [Script.Module.outermost, h]; rfl⟩
  by_contra hne
  -- A definition of the greatest width is inside no other one.
  obtain ⟨d, hd, hwidest⟩ := Multiset.exists_min_image (fun d : Node ↦ (d.start : Int) - d.stop)
    (s := ↑(writtenDefinitions m)) (by simpa using hne)
  have houter : (writtenDefinitions m).any (isInside d) = false := by
    refine List.any_eq_false.2 fun e he hinside ↦ ?_
    have hle := hwidest e he
    simp only [isInside, Bool.and_eq_true, Bool.or_eq_true, bne_iff_ne, decide_eq_true_eq] at hinside
    omega
  have hmem : d ∈ m.outermost := List.mem_filter.2 ⟨hd, by simp [houter]⟩
  rw [h] at hmem
  cases hmem

theorem fallbackRoot_run (w : Workspace) (m : Module) :
    ∃ root, (∀ σ, (fallbackRoot w m).run σ = (root, σ)) ∧
      (root = none ↔ writtenDefinitions m = []) ∧
      ∀ l, root = some l → l.owner = m ∧ FallsBack w m l.object := by
  choose places hrun hmem using exists_registeredBy w m
  let free (d : Node) : Bool := !((m.outermost.map places).flatten).contains d.start
  have hfree : ∀ d ∈ m.outermost, free d = true ↔ Free w m d := by
    intro d hd
    have hregistered : d.start ∈ (m.outermost.map places).flatten ↔
        ∃ e ∈ m.outermost, RegistersAt w m e d.start := by
      simp [hmem]
    constructor
    · intro h
      refine ⟨hd, fun e he hr ↦ ?_⟩
      have hin : ((m.outermost.map places).flatten).contains d.start = true :=
        List.contains_iff_mem.2 (hregistered.2 ⟨e, he, hr⟩)
      rw [show free d = !((m.outermost.map places).flatten).contains d.start from rfl, hin] at h
      cases h
    · intro h
      have hnot : d.start ∉ (m.outermost.map places).flatten := by
        rw [hregistered]
        rintro ⟨e, he, hr⟩
        exact h.unregistered e he hr
      simpa [free] using hnot
  refine ⟨(m.outermost.find? free <|> m.outermost.head?).map (⟨·, m⟩), fun σ ↦ ?_, ?_, ?_⟩
  · rw [fallbackRoot, run_bind, mapM_run hrun]
    rfl
  · rw [← outermost_eq_nil_iff]
    cases m.outermost with
    | nil => simp
    | cons d ds => cases h : (d :: ds).find? free <;> simp
  · intro l hl
    cases hfind : m.outermost.find? free with
    | some d =>
      rw [hfind] at hl
      obtain rfl : (⟨d, m⟩ : Located) = l := by simpa using hl
      obtain ⟨hd, before, after, he, hb⟩ := List.find?_eq_some_iff_append.1 hfind
      have hmem : d ∈ m.outermost := List.mem_of_find?_eq_some hfind
      refine ⟨rfl, .free he ((hfree d hmem).1 hd) fun e heb hfe ↦ ?_⟩
      have hein : e ∈ m.outermost := he ▸ List.mem_append_left _ heb
      have hnot := hb e heb
      rw [(hfree e hein).2 hfe] at hnot
      cases hnot
    | none =>
      rw [hfind] at hl
      obtain ⟨d, hd, rfl⟩ := Option.map_eq_some_iff.1 hl
      refine ⟨rfl, .first hd fun e he hfe ↦ ?_⟩
      exact List.find?_eq_none.1 hfind e he ((hfree e he).2 hfe)

end fallingBack

theorem FallsBack.mem (h : FallsBack w m d) : d ∈ m.outermost := by
  cases h with
  | free he => exact he ▸ List.mem_append_right _ List.mem_cons_self
  | first hd => exact List.mem_of_head? hd

theorem FallsBack.unique (h : FallsBack w m d) (h' : FallsBack w m e) : d = e := by
  cases h with
  | free he hf hb =>
    cases h' with
    | free he' hf' hb' =>
      -- Of two that are free with none before, neither is before the other.
      rcases List.append_eq_append_iff.1 (he.symm.trans he') with ⟨ds, rfl, hds⟩ | ⟨ds, rfl, hds⟩
      · cases ds with
        | nil => exact (List.cons.inj hds).1
        | cons x ds =>
          obtain ⟨rfl, -⟩ := List.cons.inj hds
          exact absurd hf (hb' d (by simp))
      · cases ds with
        | nil => exact (List.cons.inj hds).1.symm
        | cons x ds =>
          obtain ⟨rfl, -⟩ := List.cons.inj hds
          exact absurd hf' (hb e (by simp))
    | first _ hn => exact absurd hf (hn d hf.outermost)
  | first hd hn =>
    cases h' with
    | free _ hf => exact absurd hf (hn e hf.outermost)
    | first hd' => exact Option.some_inj.1 (hd.symm.trans hd')

theorem Chooses.unique {root' : Option Located} (h : Chooses w m σ root τ)
    (h' : Chooses w m σ root' υ) : root = root' ∧ τ = υ := by
  have hnone {d : Node} (hd : FallsBack w m d) : writtenDefinitions m ≠ [] := by
    intro hw
    have hmem := hd.mem
    rw [outermost_eq_nil_iff.2 hw] at hmem
    cases hmem
  cases h with
  | candidate h =>
    cases h' with
    | candidate h' => exact h.unique h'
    | written h' => cases (h.unique h').1
    | nothing h' => cases (h.unique h').1
  | written h hd =>
    cases h' with
    | candidate h' => cases (h.unique h').1
    | written h' hd' =>
      obtain rfl := hd.unique hd'
      exact ⟨rfl, (h.unique h').2⟩
    | nothing _ hd' => exact absurd hd' (hnone hd)
  | nothing h hd =>
    cases h' with
    | candidate h' => cases (h.unique h').1
    | written _ hd' => exact absurd hd (hnone hd')
    | nothing h' => exact ⟨rfl, (h.unique h').2⟩

theorem exists_chooses (w : Workspace) (m : Module) (σ : Session) :
    ∃ root τ, Chooses w m σ root τ ∧ (findRoot w m).run σ = (root, τ) := by
  obtain ⟨root, υ, htries⟩ := exists_tries w m.candidates σ
  obtain ⟨fallback, hfallback, hnone, hsome⟩ := fallbackRoot_run w m
  have hlast (τ : Session) (h : Tries w m.candidates σ none τ) : Chooses w m σ fallback τ := by
    cases hroot : fallback with
    | none => exact .nothing h (hnone.1 hroot)
    | some l =>
      obtain ⟨howner, hfalls⟩ := hsome l hroot
      obtain ⟨object, owner⟩ := l
      obtain rfl : owner = m := howner
      exact .written h hfalls
  rw [findRoot, run_bind]
  rcases Tries.append_cases htries with ⟨l, rfl, h⟩ | ⟨τ, h, hexport⟩
  · rw [handedToRunner, h.handed]
    exact ⟨_, _, .candidate htries, rfl⟩
  · rw [handedToRunner, h.handed]
    dsimp only
    split at hexport
    · rename_i he
      rw [if_pos he, run_bind, run_bind]
      cases hexport with
      | found hf =>
        rw [hf.resolveExport_run]
        exact ⟨_, _, .candidate htries, rfl⟩
      | skipped hf hrest =>
        rw [hf.resolveExport_run]
        cases hrest
        exact ⟨_, _, hlast _ htries, hfallback _⟩
    · rename_i he
      rw [if_neg he]
      cases hexport
      exact ⟨_, _, hlast _ htries, hfallback _⟩

end CommandCoverage
