import CommandCoverage.Command.Basic
import Mathlib.Data.List.Basic
import Mathlib.Data.List.Infix

namespace CommandCoverage.Command

inductive ArgTable where
  | flags | options
  deriving DecidableEq, Repr

def table (c : Command) : ArgTable → List Arg
  | .flags => c.flags
  | .options => c.options

def FirstWith (P : Arg → Prop) (as : List Arg) (a : Arg) : Prop :=
  ∃ before after, as = before ++ a :: after ∧ P a ∧ ∀ b ∈ before, ¬P b

inductive Means (c : Command) (name : String) : ArgTable → Arg → Prop
  | flag {a : Arg} : FirstWith (·.name = name) c.flags a → Means c name .flags a
  | option {a : Arg} : (∀ b ∈ c.flags, b.name ≠ name) → FirstWith (·.name = name) c.options a →
      Means c name .options a
  | flagAlias {a : Arg} : (∀ b ∈ c.flags ++ c.options, b.name ≠ name) →
      FirstWith (name ∈ ·.aliases) c.flags a → Means c name .flags a
  | optionAlias {a : Arg} : (∀ b ∈ c.flags ++ c.options, b.name ≠ name) →
      (∀ b ∈ c.flags, name ∉ b.aliases) → FirstWith (name ∈ ·.aliases) c.options a →
      Means c name .options a

/-- What a name means for the command at the end of a path: the nearest argument, counted from that
command upwards, that the name means at the command `owner` leads to. -/
structure Finds (root : Command) (path : List String) (name : String) (owner : List String)
    (t : ArgTable) (a : Arg) : Prop where
  leads : (root.resolve path).isSome
  above : owner <+: path
  means : ∃ c, root.resolve owner = some c ∧ c.Means name t a
  nearest : ∀ nearer, owner <+: nearer → nearer ≠ owner → nearer <+: path →
    ∀ c, root.resolve nearer = some c → ∀ u b, ¬c.Means name u b

variable {c root : Command} {name : String} {path owner : List String}

theorem firstWith_iff {P : Arg → Prop} {p : Arg → Bool} (h : ∀ a, p a = true ↔ P a) {as : List Arg}
    {a : Arg} : FirstWith P as a ↔ as.find? p = some a := by
  simp only [List.find?_eq_some_iff_append, FirstWith, Bool.not_eq_true', ← Bool.not_eq_true, h]
  grind

theorem fits_of_named (h : ∃ b ∈ c.flags ++ c.options, b.name = name) (a : Arg) :
    c.fits name a = true ↔ a.name = name := by
  have h' : c.args.any (·.name == name) = true := by simpa [args, or_and_right, exists_or] using h
  simp [fits, h']

theorem fits_of_not_named (h : ∀ b ∈ c.flags ++ c.options, b.name ≠ name) (a : Arg) :
    c.fits name a = true ↔ name ∈ a.aliases := by
  have h' : c.args.any (·.name == name) = false := by
    simpa [args, or_imp, forall_and] using h
  simp [fits, h']

theorem means_flags_iff {a : Arg} :
    c.Means name .flags a ↔ c.flags.find? (c.fits name) = some a := by
  constructor
  · intro h
    cases h with
    | flag ha =>
      obtain ⟨before, after, hs, hn, -⟩ := id ha
      exact (firstWith_iff (fits_of_named ⟨a, by simp [hs], hn⟩)).1 ha
    | flagAlias hn ha => exact (firstWith_iff (fits_of_not_named hn)).1 ha
  · intro ha
    by_cases hn : ∃ b ∈ c.flags ++ c.options, b.name = name
    · exact .flag ((firstWith_iff (fits_of_named hn)).2 ha)
    · push Not at hn
      exact .flagAlias hn ((firstWith_iff (fits_of_not_named hn)).2 ha)

theorem means_options_iff {a : Arg} : c.Means name .options a ↔
    c.flags.find? (c.fits name) = none ∧ c.options.find? (c.fits name) = some a := by
  simp only [List.find?_eq_none]
  constructor
  · intro h
    cases h with
    | option hf ha =>
      obtain ⟨before, after, hs, hn, -⟩ := id ha
      have hfits : ∀ b, c.fits name b = true ↔ b.name = name :=
        fits_of_named ⟨a, by simp [hs], hn⟩
      exact ⟨fun b hb ↦ by simpa [hfits] using hf b hb, (firstWith_iff hfits).1 ha⟩
    | optionAlias hn hf ha =>
      have hfits := fits_of_not_named hn
      exact ⟨fun b hb ↦ by simpa [hfits] using hf b hb, (firstWith_iff hfits).1 ha⟩
  · rintro ⟨hf, ha⟩
    by_cases hn : ∃ b ∈ c.flags ++ c.options, b.name = name
    · have hfits := fits_of_named hn
      exact .option (fun b hb ↦ by simpa [hfits] using hf b hb) ((firstWith_iff hfits).2 ha)
    · push Not at hn
      have hfits := fits_of_not_named hn
      exact .optionAlias hn (fun b hb ↦ by simpa [hfits] using hf b hb)
        ((firstWith_iff hfits).2 ha)

theorem findArg_eq_some_iff {a : Arg} : c.findArg name = some a ↔ ∃ t, c.Means name t a := by
  simp only [findArg, args, List.find?_append, Option.or_eq_some_iff]
  constructor
  · rintro (h | h)
    · exact ⟨.flags, means_flags_iff.2 h⟩
    · exact ⟨.options, means_options_iff.2 h⟩
  · rintro ⟨t | t, h⟩
    · exact .inl (means_flags_iff.1 h)
    · exact .inr (means_options_iff.1 h)

theorem findArg_eq_none_iff : c.findArg name = none ↔ ∀ t a, ¬c.Means name t a := by
  rw [Option.eq_none_iff_forall_ne_some]
  simp only [ne_eq, findArg_eq_some_iff]
  exact ⟨fun h t a ha ↦ h a ⟨t, ha⟩, fun h a ⟨t, ha⟩ ↦ h t a ha⟩

theorem Means.unique {t u : ArgTable} {a b : Arg} (ha : c.Means name t a) (hb : c.Means name u b) :
    t = u ∧ a = b := by
  cases t <;> cases u <;> simp only [means_flags_iff, means_options_iff] at ha hb <;> grind

theorem Means.mem {t : ArgTable} {a : Arg} (h : c.Means name t a) : a ∈ c.table t := by
  cases t
  · exact List.mem_of_find?_eq_some (means_flags_iff.1 h)
  · exact List.mem_of_find?_eq_some (means_options_iff.1 h).2

theorem resolve_cons {p : String} {ps : List String} {d : Command} (h : root.child p = some d) :
    root.resolve (p :: ps) = d.resolve ps := by
  simp [resolve, h]

/-- The prefixes of a path that starts at a subcommand: none of it, or the subcommand and a prefix
of the rest. -/
theorem forall_prefix_cons {p : String} {ps : List String} {P : List String → Prop} :
    (∀ o, o <+: p :: ps → P o) ↔ P [] ∧ ∀ o, o <+: ps → P (p :: o) := by
  constructor
  · exact fun h ↦ ⟨h [] List.nil_prefix, fun o ho ↦ h _ (List.prefix_cons_inj p |>.2 ho)⟩
  · rintro ⟨h, h'⟩ o ho
    rcases List.prefix_cons_iff.1 ho with rfl | ⟨o', rfl, ho'⟩
    · exact h
    · exact h' o' ho'

theorem lookup_eq_none_iff (h : (root.resolve path).isSome) : root.lookup name path = none ↔
    ∀ o, o <+: path → ∀ c, root.resolve o = some c → ∀ t a, ¬c.Means name t a := by
  induction path generalizing root with
  | nil => simp [lookup, resolve, List.prefix_nil, findArg_eq_none_iff]
  | cons p ps ih =>
    cases hd : root.child p with
    | none => simp [resolve, hd] at h
    | some d =>
      rw [resolve_cons hd] at h
      rw [forall_prefix_cons]
      simp only [resolve_cons hd, ← ih h]
      cases hl : d.lookup name ps with
      | none => simp [lookup, hd, hl, resolve, findArg_eq_none_iff]
      | some x => simp [lookup, hd, hl]

theorem Finds.unique {owner' : List String} {t u : ArgTable} {a b : Arg}
    (ha : root.Finds path name owner t a) (hb : root.Finds path name owner' u b) :
    owner = owner' ∧ t = u ∧ a = b := by
  obtain ⟨c, hc, hm⟩ := ha.means
  obtain ⟨d, hd, hn⟩ := hb.means
  have he : owner = owner' := by
    by_contra hne
    rcases List.prefix_or_prefix_of_prefix ha.above hb.above with h | h
    · exact ha.nearest owner' h (Ne.symm hne) hb.above d hd u b hn
    · exact hb.nearest owner h hne ha.above c hc t a hm
  subst he
  obtain rfl : c = d := Option.some_inj.1 (hc.symm.trans hd)
  exact ⟨rfl, hm.unique hn⟩

theorem Finds.means_iff {t u : ArgTable} {a b : Arg} (h : root.Finds path name owner t a)
    (hc : root.resolve owner = some c) : root.Finds path name owner u b ↔ c.Means name u b := by
  obtain ⟨d, hd, hm⟩ := h.means
  obtain rfl : c = d := Option.some_inj.1 (hc.symm.trans hd)
  constructor
  · intro hb
    obtain ⟨-, rfl, rfl⟩ := hb.unique h
    exact hm
  · intro hb
    obtain ⟨rfl, rfl⟩ := hb.unique hm
    exact h

theorem Finds.cons {p : String} {ps o : List String} {d : Command} {t : ArgTable} {a : Arg}
    (h : root.child p = some d) (hf : d.Finds ps name o t a) :
    root.Finds (p :: ps) name (p :: o) t a := by
  obtain ⟨c, hc, hm⟩ := hf.means
  refine ⟨by rw [resolve_cons h]; exact hf.leads, (List.prefix_cons_inj p).2 hf.above,
    ⟨c, by rwa [resolve_cons h], hm⟩, ?_⟩
  rintro _ ⟨rest, rfl⟩ hne hp e he
  rw [List.cons_append] at he hp hne
  rw [resolve_cons h] at he
  exact hf.nearest _ (List.prefix_append _ _) (by simpa using hne)
    ((List.prefix_cons_inj p).1 hp) e he

theorem finds_of_lookup {a : Arg} (h : (root.resolve path).isSome)
    (hl : root.lookup name path = some (owner, a)) : ∃ t, root.Finds path name owner t a := by
  induction path generalizing root owner with
  | nil =>
    simp only [lookup, Option.map_eq_some_iff, findArg_eq_some_iff, Prod.mk.injEq] at hl
    obtain ⟨a, ⟨t, ht⟩, rfl, rfl⟩ := hl
    exact ⟨t, h, List.prefix_rfl, ⟨root, by simp [resolve], ht⟩,
      fun nearer _ hne hp ↦ absurd (List.prefix_nil.1 hp) hne⟩
  | cons p ps ih =>
    obtain ⟨d, hd⟩ : ∃ d, root.child p = some d := by
      cases hd : root.child p with
      | none => simp [resolve, hd] at h
      | some d => exact ⟨d, rfl⟩
    have hs : (d.resolve ps).isSome := by rwa [resolve_cons hd] at h
    cases hx : d.lookup name ps with
    | some x =>
      obtain ⟨o, b⟩ := x
      obtain ⟨rfl, rfl⟩ : p :: o = owner ∧ b = a := by simpa [lookup, hd, hx] using hl
      obtain ⟨t, ht⟩ := ih hs hx
      exact ⟨t, ht.cons hd⟩
    | none =>
      have hnone := (lookup_eq_none_iff hs).1 hx
      simp only [lookup, hd, Option.bind_some, hx, Option.map_eq_some_iff, findArg_eq_some_iff,
        Prod.mk.injEq] at hl
      obtain ⟨a, ⟨t, ht⟩, rfl, rfl⟩ := hl
      refine ⟨t, h, List.nil_prefix, ⟨root, by simp [resolve], ht⟩, fun nearer _ hne hp e he ↦ ?_⟩
      rcases List.prefix_cons_iff.1 hp with rfl | ⟨o, rfl, ho⟩
      · exact absurd rfl hne
      · exact hnone o ho e (by rwa [resolve_cons hd] at he)

/-- Look-up gives what the nearest command that knows a name means by it. -/
theorem lookup_eq_some_iff {a : Arg} (h : (root.resolve path).isSome) :
    root.lookup name path = some (owner, a) ↔ ∃ t, root.Finds path name owner t a := by
  refine ⟨finds_of_lookup h, fun ⟨t, ht⟩ ↦ ?_⟩
  cases hl : root.lookup name path with
  | none =>
    obtain ⟨c, hc, hm⟩ := ht.means
    exact absurd hm ((lookup_eq_none_iff h).1 hl owner ht.above c hc t a)
  | some x =>
    obtain ⟨u, hu⟩ := finds_of_lookup h hl
    obtain ⟨ho, -, ha⟩ := hu.unique ht
    exact congrArg some (Prod.ext ho ha)

end CommandCoverage.Command
