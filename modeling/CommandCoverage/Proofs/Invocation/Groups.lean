import CommandCoverage.Proofs.Invocation.Leading
import CommandCoverage.Proofs.Text.Order

namespace CommandCoverage.Invocation

/-- A group of tokens starts with a dash and not with the value of an option. -/
def OpensGroup (us : List String) : Prop :=
  ∀ u ∈ us.head?, startsWithDash u = true ∧ isOptionValue u = false

def Request.append (r s : Request) : Request where
  names := r.names ++ s.names
  positionals := r.positionals ++ s.positionals

/-- What two groups of tokens use together, for the same path. -/
def Classified.join (a b : Classified) : Classified where
  path := a.path
  flags := Text.sortedSet (a.flags ++ b.flags)
  options := Text.sortedSet (a.options ++ b.options)
  positionals := a.positionals ++ b.positionals

variable {root : Command} {lookup : String → Option Arg} {node : Option Command} {l : Leading}
  {r : Request} {t : String} {ts us : List String} {wanted : Nat}

theorem Request.append_assoc (r s s' : Request) :
    (r.append s).append s' = r.append (s.append s') := by
  simp [Request.append]

theorem Request.append_empty : r.append {} = r := by
  simp [Request.append]

theorem Request.empty_append : Request.append {} r = r := rfl

section reading

theorem readTokens_dashes :
    readTokens lookup wanted r ("--" :: ts) = r.append { positionals := ts } := by
  have hvalue : isOptionValue "--" = false := by decide
  simp [readTokens, hvalue, Request.append]

/-- What a token adds, and the values it leaves to be taken, depend on the values wanted before. -/
theorem exists_readTokens_cons (lookup : String → Option Arg) (wanted : Nat) (h : t ≠ "--") :
    ∃ left s, ∀ r ts, readTokens lookup wanted r (t :: ts) =
      readTokens lookup left (r.append s) ts := by
  simp only [readTokens, beq_iff_eq, h, if_false]
  split
  · exact ⟨wanted - 1, {}, fun r ts ↦ by rw [Request.append_empty]⟩
  · split
    · exact ⟨0, { positionals := [t] }, fun r ts ↦ by simp [Request.append]⟩
    · exact ⟨_, { names := (tokenNames lookup t).1 }, fun r ts ↦ by
        rw [Request.append, List.append_nil]⟩

theorem readTokens_eq_append (lookup : String → Option Arg) (wanted : Nat) (r : Request)
    (ts : List String) :
    readTokens lookup wanted r ts = r.append (readTokens lookup wanted {} ts) := by
  induction ts generalizing wanted r with
  | nil => exact Request.append_empty.symm
  | cons t ts ih =>
    by_cases ht : t = "--"
    · subst ht
      rw [readTokens_dashes, readTokens_dashes, Request.empty_append]
    · obtain ⟨left, s, hs⟩ := exists_readTokens_cons lookup wanted ht
      rw [hs, hs, ih, ih left (Request.append {} s), Request.append_assoc, Request.empty_append]

theorem exists_readTokens_append (lookup : String → Option Arg) (wanted : Nat) (r : Request)
    (h : "--" ∉ ts) : ∃ left, ∀ us, readTokens lookup wanted r (ts ++ us) =
      readTokens lookup left (readTokens lookup wanted r ts) us := by
  induction ts generalizing wanted r with
  | nil => exact ⟨wanted, fun us ↦ rfl⟩
  | cons t ts ih =>
    have ht : t ≠ "--" := fun he ↦ h (he ▸ List.mem_cons_self)
    have hts : "--" ∉ ts := fun hm ↦ h (List.mem_cons_of_mem _ hm)
    obtain ⟨left, s, hs⟩ := exists_readTokens_cons lookup wanted ht
    obtain ⟨left', hleft'⟩ := ih left (r.append s) hts
    exact ⟨left', fun us ↦ by rw [List.cons_append, hs, hs, hleft']⟩

theorem OpensGroup.readTokens_eq (h : OpensGroup us) (wanted : Nat) :
    readTokens lookup wanted r us = readTokens lookup 0 r us := by
  cases us with
  | nil => rfl
  | cons u us =>
    rw [readTokens, readTokens, (h u rfl).2]
    simp

theorem readTokens_append (r : Request) (h : "--" ∉ ts) (hu : OpensGroup us) :
    readTokens lookup 0 r (ts ++ us) =
      (readTokens lookup 0 r ts).append (readTokens lookup 0 {} us) := by
  obtain ⟨left, hleft⟩ := exists_readTokens_append lookup 0 r h
  rw [hleft, hu.readTokens_eq, readTokens_eq_append]

end reading

section splitting

theorem OpensGroup.dash (h : OpensGroup us) :
    ∀ u ∈ us.head?, startsWithDash u = true :=
  fun u hu ↦ (h u hu).1

theorem splitFrom_append (h : ∀ u ∈ us.head?, startsWithDash u = true) :
    splitFrom node l (ts ++ us) = splitFrom node l ts := by
  induction ts generalizing node l with
  | nil =>
    cases us with
    | nil => rfl
    | cons u us => exact splitFrom_dash (h u rfl)
  | cons t ts ih =>
    rw [List.cons_append, splitFrom.eq_def, splitFrom.eq_def node l (t :: ts)]
    simp only [ih]

theorem splitFrom_leadingRun (ts : List String) :
    splitFrom node l (leadingRun ts) = splitFrom node l ts := by
  have hdash : ∀ u ∈ (ts.dropWhile (!startsWithDash ·)).head?, startsWithDash u = true := by
    intro u hu
    have hfirst := List.head?_dropWhile_not (!startsWithDash ·) ts
    rw [hu] at hfirst
    simpa using hfirst
  rw [← splitFrom_append hdash]
  exact congrArg (splitFrom node l) List.takeWhile_append_dropWhile

theorem consumed_splitPath (root : Command) (ts : List String) :
    (splitPath root ts).consumed = (leadingRun ts).length := by
  obtain ⟨k, c, -, he⟩ := exists_splitFrom (l := {}) root ts rfl
  rw [splitPath, he]
  split
  · rw [Leading.append, ← List.length_append, List.take_append_drop, Nat.zero_add]
  · simp [Leading.append]

theorem splitPath_path (root : Command) (ts : List String) :
    splitPath root (splitPath root ts).path =
      { path := (splitPath root ts).path, consumed := (splitPath root ts).path.length } := by
  obtain ⟨k, c, hk, he⟩ := exists_splitFrom (l := {}) root ts rfl
  rw [splitPath, splitPath, he]
  split
  · have hrun : leadingRun ((leadingRun ts).take k) = (leadingRun ts).take k :=
      leadingRun_eq_self fun t ht ↦ startsWithDash_of_mem_leadingRun (List.mem_of_mem_take ht)
    obtain ⟨j, d, hj, he'⟩ := exists_splitFrom (l := {}) root ((leadingRun ts).take k) rfl
    rw [hrun] at hj he'
    -- The whole path leads to a command, so it is followed to its end.
    have hall : j = ((leadingRun ts).take k).length := by
      by_contra hne
      have hnone := hj.furthest _ (lt_of_le_of_ne hj.le hne) le_rfl
      rw [List.take_length, hk.leads] at hnone
      cases hnone
    simp only [Leading.append, List.nil_append]
    rw [he', if_pos (.inl hall), hall]
    simp [Leading.append]
  · rename_i hend
    simp only [Leading.append, List.nil_append]
    rw [splitFrom_leadingRun, he, if_neg hend]
    simp [Leading.append]

end splitting

section groups

variable (root ts)

theorem splitPath_append (hu : OpensGroup us) : splitPath root (ts ++ us) = splitPath root ts :=
  splitFrom_append hu.dash

theorem splitPath_path_append (hu : OpensGroup us) :
    splitPath root ((splitPath root ts).path ++ us) =
      { path := (splitPath root ts).path, consumed := (splitPath root ts).path.length } :=
  (splitPath_append root _ hu).trans (splitPath_path root ts)

theorem meaning_congr {ts ts' : List String}
    (h : (splitPath root ts').path = (splitPath root ts).path) :
    meaning root ts' = meaning root ts := by
  unfold meaning placeOf
  simp only [h]

theorem request_append (h : "--" ∉ ts) (hu : OpensGroup us) : request root (ts ++ us) =
    (request root ts).append (readTokens (meaning root ts) 0 {} us) := by
  have hsplit := splitPath_append root ts hu
  have hmeaning := meaning_congr root (congrArg Leading.path hsplit)
  have hlength : (splitPath root ts).consumed ≤ ts.length := by
    rw [consumed_splitPath]
    exact (List.takeWhile_sublist _).length_le
  have hrest : "--" ∉ ts.drop (splitPath root ts).consumed := fun hm ↦ h (List.mem_of_mem_drop hm)
  rw [request, hmeaning, hsplit, List.drop_append_of_le_length hlength]
  exact readTokens_append _ hrest hu

theorem request_path_append (hu : OpensGroup us) :
    request root ((splitPath root ts).path ++ us) = readTokens (meaning root ts) 0 {} us := by
  have hsplit := splitPath_path_append root ts hu
  have hpath := congrArg Leading.path hsplit
  rw [request, meaning_congr root hpath, hsplit, List.drop_left]

theorem classify_of_request {ts ts' : List String} {r : Request}
    (hp : (splitPath root ts').path = (splitPath root ts).path) (hr : request root ts' = r) :
    classify root ts' =
      { path := (splitPath root ts).path
        flags := Text.sortedSet (r.names.filterMap (flagOf (meaning root ts)))
        options := Text.sortedSet (r.names.filterMap (optionOf (meaning root ts)))
        positionals := r.positionals } := by
  rw [classify, hr, hp, meaning_congr root hp]

end groups

/-- Some tokens, and a group after them, use together what the tokens use and what the group uses
after their path. After two dashes alone everything is a positional. -/
theorem classify_append (h : "--" ∉ ts) (hu : OpensGroup us) :
    (classify root ((classify root ts).path ++ us)).path = (classify root ts).path ∧
    classify root (ts ++ us) =
      (classify root ts).join (classify root ((classify root ts).path ++ us)) ∧
    ∀ vs, classify root (ts ++ "--" :: vs) =
      { classify root ts with positionals := (classify root ts).positionals ++ vs } := by
  have hdashes (vs : List String) : OpensGroup ("--" :: vs) := by
    rintro u ⟨⟩
    decide
  have hpath := congrArg Leading.path (splitPath_path_append root ts hu)
  have hgroup := classify_of_request root hpath (request_path_append root ts hu)
  have hall := classify_of_request root (congrArg Leading.path (splitPath_append root ts hu))
    (request_append root ts h hu)
  have hown : (classify root ts).path = (splitPath root ts).path := rfl
  rw [hown]
  refine ⟨by rw [hgroup], ?_, ?_⟩
  · rw [hgroup, hall]
    simp only [classify, Classified.join, Request.append, List.filterMap_append,
      Text.sortedSet_append_sortedSet]
  · intro vs
    rw [classify_of_request root (congrArg Leading.path (splitPath_append root ts (hdashes vs)))
      (request_append root ts h (hdashes vs)), readTokens_dashes]
    simp [Request.append, classify]

def waitingTree : Command where
  name := "cli"
  flags := [{ name := "verbose", type := "boolean", aliases := ["v"] }]
  subcommands := [{ name := "build", options := [{ name := "out", aliases := ["o"] }] }]

theorem classify_append_waiting :
    "--" ∉ ["build", "src", "-o"] ∧ OpensGroup ["-v", "x"] ∧
    (classify waitingTree ((classify waitingTree ["build", "src", "-o"]).path ++ ["-v", "x"])).path =
      (classify waitingTree ["build", "src", "-o"]).path ∧
    classify waitingTree (["build", "src", "-o"] ++ ["-v", "x"]) =
      (classify waitingTree ["build", "src", "-o"]).join
        (classify waitingTree
          ((classify waitingTree ["build", "src", "-o"]).path ++ ["-v", "x"])) ∧
    ∀ vs, classify waitingTree (["build", "src", "-o"] ++ "--" :: vs) =
      { classify waitingTree ["build", "src", "-o"] with
        positionals := (classify waitingTree ["build", "src", "-o"]).positionals ++ vs } := by
  have hdashes : "--" ∉ ["build", "src", "-o"] := by decide
  have hgroup : OpensGroup ["-v", "x"] := by
    rintro u ⟨⟩
    decide
  exact ⟨hdashes, hgroup, classify_append hdashes hgroup⟩

end CommandCoverage.Invocation
