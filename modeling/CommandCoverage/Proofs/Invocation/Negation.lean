import CommandCoverage.Proofs.Invocation.Spelling

namespace CommandCoverage.Invocation

def MeansFlag (root : Command) (tokens : List String) (name : String) : Prop :=
  ∃ a, meaning root tokens name = some a ∧ a.isFlag = true

def Request.used (root : Command) (tokens : List String) (r : Request) : Classified where
  path := (splitPath root tokens).path
  flags := Text.sortedSet (r.names.filterMap (flagOf (meaning root tokens)))
  options := Text.sortedSet (r.names.filterMap (optionOf (meaning root tokens)))
  positionals := r.positionals

def usedAfter (root : Command) (tokens us : List String) : Classified :=
  (readTokens (meaning root tokens) 0 {} us).used root tokens

/-- A token uses a flag of a name, and no option, and takes no token after it as a value. -/
def KeptAs (root : Command) (tokens : List String) (t name : String) : Prop :=
  ∀ post, classify root (tokens ++ t :: post) =
    ((classify root tokens).join
      { path := (classify root tokens).path, flags := [name], options := [], positionals := [] }).join
      (usedAfter root tokens post)

structure NegatesFlagsOnly (root : Command) (tokens : List String) (x : String) : Prop where
  flag : MeansFlag root tokens x → ∀ post,
    classify root (tokens ++ ("--no-" ++ x) :: post) = classify root (tokens ++ ("--" ++ x) :: post)
  other : ¬MeansFlag root tokens x → KeptAs root tokens ("--no-" ++ x) ("no-" ++ x)

variable {root : Command} {t x n m : String} {pre : List String} {a b : Classified}
  {r s : Request}

section usage

theorem Classified.mem_flags_join : m ∈ (a.join b).flags ↔ m ∈ a.flags ∨ m ∈ b.flags := by
  rw [Classified.join, Text.mem_sortedSet, List.mem_append]

theorem Request.used_append :
    (r.append s).used root pre = (r.used root pre).join (s.used root pre) := by
  simp only [Request.used, Request.append, Classified.join, List.filterMap_append,
    Text.sortedSet_append_sortedSet]

/-- A token that asks for one name uses what the name means, and then what comes after it is read. -/
theorem classify_append_asks (h : "--" ∉ pre) (ht : AsksFor (meaning root pre) t [x] false)
    (post : List String) : classify root (pre ++ t :: post) =
      ((classify root pre).join (Request.used root pre { names := [x] })).join
        ((readTokens (meaning root pre) (if takesValue (meaning root pre) x then 1 else 0) {}
          post).used root pre) := by
  have hu := ht.opensGroup post
  have hpath := congrArg Leading.path (splitPath_append root pre hu)
  have hread := request_append root pre h hu
  rw [ht.readTokens_eq, if_neg Bool.false_ne_true, List.countP_singleton, readTokens_eq_append,
    Request.empty_append, ← Request.append_assoc] at hread
  calc classify root (pre ++ t :: post)
      = Request.used root pre (request root (pre ++ t :: post)) := classify_of_request root hpath rfl
    _ = _ := by
      rw [hread, Request.used_append, Request.used_append]
      rfl

theorem used_of_meaning_eq_none (h : meaning root pre x = none) :
    Request.used root pre { names := [x] } =
      { path := (splitPath root pre).path
        flags := if x ∈ builtinFlags then [] else [x], options := [], positionals := [] } := by
  have hflags : [x].filterMap (flagOf (meaning root pre)) =
      if x ∈ builtinFlags then [] else [x] := by
    by_cases hx : x ∈ builtinFlags <;> simp [flagOf, h, hx]
  have hoptions : [x].filterMap (optionOf (meaning root pre)) = [] := by simp [optionOf, h]
  rw [Request.used, hflags, hoptions]
  split <;> simp [Text.sortedSet, Text.sorted, Text.withoutRepeats]

theorem not_mem_flags_usedAfter_nil : m ∉ (usedAfter root pre []).flags := by
  simp [usedAfter, readTokens, Request.used, Text.mem_sortedSet]

end usage

theorem asksFor_negated (he : '=' ∉ x.toList) (h : meaning root pre ("no-" ++ x) = none) :
    AsksFor (meaning root pre) ("--no-" ++ x) [x] false := by
  have htoken : "--no-" ++ x = "--" ++ ("no-" ++ x) := by
    rw [← String.append_assoc]
    rfl
  rw [htoken]
  exact asksFor_long (by simp) (by simpa using he) (positiveName_negated h)

section exceptions

variable (h : "--" ∉ pre) (ht : AsksFor (meaning root pre) t [x] false)

include h ht

theorem not_keptAs_of_option (hx : MeansOption root pre x) : ¬KeptAs root pre t n := by
  intro hkept
  have hvalue : isOptionValue "value" = true := by decide
  have hpositional : usedAfter root pre ["value"] =
      Request.used root pre { positionals := ["value"] } := rfl
  have htaken := classify_append_asks h ht ["value"]
  rw [if_pos (takesValue_iff.2 hx), readTokens_value hvalue] at htaken
  have hlength := congrArg (·.positionals.length) (htaken.symm.trans (hkept ["value"]))
  rw [hpositional] at hlength
  simp [Classified.join, Request.used, readTokens] at hlength

/-- A token that asks for a name without a meaning is kept as another name only if this and, unless
every command understands it, the name itself have been used before. -/
theorem keptAs_iff_of_meaning_eq_none (hx : meaning root pre x = none) (hn : n ≠ x) :
    KeptAs root pre t n ↔ n ∈ (classify root pre).flags ∧
      (x ∈ builtinFlags ∨ x ∈ (classify root pre).flags) := by
  have hvalue : takesValue (meaning root pre) x = false := by simp [takesValue, hx]
  have hasked (post : List String) : classify root (pre ++ t :: post) =
      ((classify root pre).join
        { path := (splitPath root pre).path
          flags := if x ∈ builtinFlags then [] else [x], options := [], positionals := [] }).join
        (usedAfter root pre post) := by
    rw [classify_append_asks h ht, hvalue, used_of_meaning_eq_none hx]
    rfl
  constructor
  · intro hkept
    have hflags (m : String) := congrArg (m ∈ ·.flags) ((hasked []).symm.trans (hkept []))
    simp only [Classified.mem_flags_join, not_mem_flags_usedAfter_nil, or_false, List.mem_singleton,
      List.mem_ite_nil_left] at hflags
    grind
  · rintro ⟨hn', hx'⟩ post
    have hflags : Text.sortedSet ((classify root pre).flags ++ if x ∈ builtinFlags then [] else [x]) =
        Text.sortedSet ((classify root pre).flags ++ [n]) :=
      Text.sortedSet_congr fun m ↦ by grind
    rw [hasked]
    simp only [Classified.join, hflags]

end exceptions

theorem classify_ne_of_dashes (h : "--" ∉ pre) (ht : AsksFor (meaning root pre) t [x] false) :
    classify root (pre ++ [t, "--"]) ≠ classify root (pre ++ ["--", "--"]) := by
  intro hsame
  have hopens : OpensGroup ["--", "--"] := by
    rintro u ⟨⟩
    decide
  have hpath := congrArg Leading.path (splitPath_append root pre hopens)
  have hread := request_append root pre h hopens
  rw [readTokens_dashes, Request.empty_append] at hread
  rw [classify_append_asks h ht, readTokens_dashes, Request.empty_append,
    classify_of_request root hpath hread] at hsame
  have hlength := congrArg (·.positionals.length) hsame
  simp [Classified.join, Request.used, Request.append, classify] at hlength

theorem classify_negated (h : "--" ∉ pre) (he : '=' ∉ x.toList)
    (hno : meaning root pre ("no-" ++ x) = none) (hne : x ≠ "")
    (hx : positiveName (meaning root pre) x = x) (post : List String) :
    classify root (pre ++ ("--no-" ++ x) :: post) = classify root (pre ++ ("--" ++ x) :: post) := by
  rw [classify_append_asks h (asksFor_negated he hno),
    classify_append_asks h (asksFor_long hne he hx)]

/-- Negation is for flags exactly if the name that is negated is that of a flag, or if it means
nothing and all that could be used in its place has been used before. -/
theorem negatesFlagsOnly_iff (h : "--" ∉ pre) (he : '=' ∉ x.toList)
    (hno : meaning root pre ("no-" ++ x) = none) :
    NegatesFlagsOnly root pre x ↔ MeansFlag root pre x ∧ x ≠ "" ∨
      meaning root pre x = none ∧ "no-" ++ x ∈ (classify root pre).flags ∧
        (x ∈ builtinFlags ∨ x ∈ (classify root pre).flags) := by
  have ht : AsksFor (meaning root pre) ("--no-" ++ x) [x] false := asksFor_negated he hno
  cases hx : meaning root pre x with
  | none =>
    have hflag : ¬MeansFlag root pre x := by simp [MeansFlag, hx]
    have hne : "no-" ++ x ≠ x := fun hsame ↦ by simpa using congrArg String.length hsame
    rw [← keptAs_iff_of_meaning_eq_none h ht hx hne]
    constructor
    · exact fun hn ↦ .inr ⟨rfl, hn.other hflag⟩
    · rintro (⟨hf, -⟩ | ⟨-, hk⟩)
      · exact absurd hf hflag
      · exact ⟨fun hf ↦ absurd hf hflag, fun _ ↦ hk⟩
  | some a =>
    cases ha : a.isFlag with
    | false =>
      have hflag : ¬MeansFlag root pre x := by simp [MeansFlag, hx, ha]
      have hoption : MeansOption root pre x := ⟨a, hx, ha⟩
      constructor
      · exact fun hn ↦ absurd (hn.other hflag) (not_keptAs_of_option h ht hoption)
      · rintro (⟨hf, -⟩ | ⟨hnone, -⟩)
        · exact absurd hf hflag
        · cases hnone
    | true =>
      have hflag : MeansFlag root pre x := ⟨a, hx, ha⟩
      constructor
      · intro hn
        refine .inl ⟨hflag, ?_⟩
        rintro rfl
        exact classify_ne_of_dashes h ht (hn.flag hflag ["--"])
      · rintro (⟨-, hne⟩ | ⟨hnone, -⟩)
        · have hname : positiveName (meaning root pre) x = x := positiveName_of_isSome (by simp [hx])
          exact ⟨fun _ ↦ classify_negated h he hno hne hname, fun hf ↦ absurd hflag hf⟩
        · cases hnone

theorem negatesFlagsOnly_iff_waiting :
    "--" ∉ ["build", "-o"] ∧ '=' ∉ "verbose".toList ∧
    meaning waitingTree ["build", "-o"] "no-verbose" = none ∧
    (NegatesFlagsOnly waitingTree ["build", "-o"] "verbose" ↔
      MeansFlag waitingTree ["build", "-o"] "verbose" ∧ "verbose" ≠ "" ∨
        meaning waitingTree ["build", "-o"] "verbose" = none ∧
          "no-" ++ "verbose" ∈ (classify waitingTree ["build", "-o"]).flags ∧
          ("verbose" ∈ builtinFlags ∨
            "verbose" ∈ (classify waitingTree ["build", "-o"]).flags)) := by
  have hdashes : "--" ∉ ["build", "-o"] := by decide
  have hequals : '=' ∉ "verbose".toList := by decide
  have hno : meaning waitingTree ["build", "-o"] "no-verbose" = none := rfl
  exact ⟨hdashes, hequals, hno, negatesFlagsOnly_iff hdashes hequals hno⟩

/-- A negated name of an option uses the option, with the token after it as its value. -/
theorem negated_option_used :
    "--" ∉ ["build"] ∧ meaning waitingTree ["build"] "no-out" = none ∧
    ¬MeansFlag waitingTree ["build"] "out" ∧
    classify waitingTree ["build", "--no-out", "dist"] =
      { path := ["build"], flags := [], options := ["out"], positionals := [] } ∧
    ¬NegatesFlagsOnly waitingTree ["build"] "out" := by
  have hdashes : "--" ∉ ["build"] := by decide
  have hno : meaning waitingTree ["build"] "no-out" = none := rfl
  have hoption : MeansOption waitingTree ["build"] "out" := ⟨_, rfl, rfl⟩
  have hflag : ¬MeansFlag waitingTree ["build"] "out" := by
    obtain ⟨a, ha, hoption⟩ := hoption
    rintro ⟨b, hb, hflag⟩
    cases Option.some_inj.1 (ha.symm.trans hb)
    exact absurd (hoption.symm.trans hflag) (by decide)
  have hasks : AsksFor (meaning waitingTree ["build"]) ("--no-" ++ "out") ["out"] false :=
    asksFor_negated (by decide) hno
  refine ⟨hdashes, hno, hflag, by decide +kernel, fun hn ↦ ?_⟩
  exact not_keptAs_of_option hdashes hasks hoption (hn.other hflag)

end CommandCoverage.Invocation
