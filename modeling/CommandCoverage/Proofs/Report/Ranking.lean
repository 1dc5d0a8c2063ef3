import CommandCoverage.Proofs.Report.Samples
import Mathlib.Data.List.Pairwise

namespace CommandCoverage

namespace Untested

def ofCommandAt (root : Command) (path : List String) : Untested where
  kind := if path.isEmpty then .command else .subcommand
  fullName := root.fullName path
  path

def ofArgAt (root : Command) (path : List String) (kind : ItemKind) (a : Arg) : Untested where
  kind
  fullName := root.fullName path
  path
  arg := some a

/-- The commands that no test runs, in tree order. -/
def commands (root : Command) : List Untested :=
  (root.nodes.filter fun (_, c) ↦ !c.tested).map fun (path, _) ↦ ofCommandAt root path

/-- The arguments that no test uses, in tree order, for each command its flags before its options. -/
def arguments (root : Command) : List Untested :=
  root.nodes.flatMap fun (path, c) ↦
    (c.flags.filter (!·.tested)).map (ofArgAt root path .flag) ++
      (c.options.filter (!·.tested)).map (ofArgAt root path .option)

variable {root c : Command} {path : List String} {p : Priority}

theorem ofCommand_eq : ofCommand root path c =
    (if c.tested then [] else [ofCommandAt root path]) ++
      (c.flags.filter (!·.tested)).map (ofArgAt root path .flag) ++
        (c.options.filter (!·.tested)).map (ofArgAt root path .option) := rfl

theorem priority_ofCommandAt : (ofCommandAt root path).kind.priority = .high := by
  cases path <;> rfl

theorem filter_map_ofArgAt (kind : ItemKind) (as : List Arg) :
    (as.map (ofArgAt root path kind)).filter (·.kind.priority == p) =
      if kind.priority = p then as.map (ofArgAt root path kind) else [] := by
  by_cases h : kind.priority = p
  · rw [if_pos h]
    exact List.filter_eq_self.2 (by simp [ofArgAt, h])
  · rw [if_neg h]
    exact List.filter_eq_nil_iff.2 (by simp [ofArgAt, h])

theorem filter_ofCommand (p : Priority) : (ofCommand root path c).filter (·.kind.priority == p) =
    match p with
    | .high => if c.tested then [] else [ofCommandAt root path]
    | .medium => (c.flags.filter (!·.tested)).map (ofArgAt root path .flag) ++
        (c.options.filter (!·.tested)).map (ofArgAt root path .option)
    | .low => [] := by
  have hflag : ItemKind.flag.priority = .medium := rfl
  have hoption : ItemKind.option.priority = .medium := rfl
  simp only [ofCommand_eq, List.filter_append, filter_map_ofArgAt, hflag, hoption]
  by_cases ht : c.tested
  · cases p <;> simp [ht]
  · cases p <;> simp [ht, priority_ofCommandAt]

theorem filter_high_ofTree (root : Command) :
    (ofTree root).filter (·.kind.priority == .high) = commands root := by
  unfold ofTree commands
  rw [List.filter_flatMap]
  simp only [filter_ofCommand]
  induction root.nodes with
  | nil => rfl
  | cons x nodes ih =>
    obtain ⟨path, c⟩ := x
    rw [List.flatMap_cons, ih]
    by_cases ht : c.tested
    · simp [ht]
    · simp [ht]

theorem filter_medium_ofTree (root : Command) :
    (ofTree root).filter (·.kind.priority == .medium) = arguments root := by
  unfold ofTree arguments
  rw [List.filter_flatMap]
  simp only [filter_ofCommand]

theorem filter_low_ofTree (root : Command) :
    (ofTree root).filter (·.kind.priority == .low) = [] := by
  unfold ofTree
  rw [List.filter_flatMap]
  simp [filter_ofCommand]

end Untested

namespace Recommendation

variable {g : Goals} {c : Coverage} {u : Untested} {r : Recommendation} {us : List Untested}
  {rs found high medium : List Recommendation} {p : Priority}

section sorting

theorem noLater_trans (r s t : Recommendation) (h : noLater r s) (h' : noLater s t) :
    noLater r t := by
  simp only [noLater, decide_eq_true_eq] at *
  exact Nat.le_trans h h'

theorem noLater_total (r s : Recommendation) : noLater r s || noLater s r := by
  simp only [noLater, Bool.or_eq_true, decide_eq_true_eq]
  exact Nat.le_total ..

theorem ofPriority_mergeSort (p : Priority) (rs : List Recommendation) :
    ofPriority p (rs.mergeSort noLater) = ofPriority p rs := by
  have hequal : (ofPriority p rs).Pairwise fun r s ↦ noLater r s := by
    refine List.pairwise_of_forall_mem_list fun r hr s hs ↦ ?_
    have hpriority {x : Recommendation} (hx : x ∈ ofPriority p rs) : x.priority = p := by
      simpa using (List.mem_filter.1 hx).2
    simp [noLater, hpriority hr, hpriority hs]
  have hkept : (ofPriority p rs).Sublist (rs.mergeSort noLater) :=
    List.sublist_mergeSort noLater_trans noLater_total hequal List.filter_sublist
  have hfiltered : (ofPriority p rs).Sublist (ofPriority p (rs.mergeSort noLater)) := by
    have h := hkept.filter (·.priority == p)
    simpa only [ofPriority, List.filter_filter, Bool.and_self] using h
  have hlength := ((List.mergeSort_perm rs noLater).filter (·.priority == p)).length_eq
  exact (hfiltered.eq_of_length hlength.symm).symm

theorem flatMap_ofPriority_of_pairwise (h : rs.Pairwise fun r s ↦ noLater r s) :
    Priority.all.flatMap (ofPriority · rs) = rs := by
  induction h with
  | nil => rfl
  | @cons r rs hr _ ih =>
    -- Nothing of a higher priority follows, so that `r` opens the first block that is not empty.
    have hnone (p : Priority) (hp : p.rank < r.priority.rank) : ofPriority p rs = [] := by
      refine List.filter_eq_nil_iff.2 fun s hs ↦ ?_
      have hle := hr s hs
      simp only [noLater, decide_eq_true_eq] at hle
      rw [beq_iff_eq]
      rintro rfl
      omega
    have hcons (p : Priority) : ofPriority p (r :: rs) =
        if r.priority = p then r :: ofPriority p rs else ofPriority p rs := by
      simp [ofPriority, List.filter_cons]
    simp only [Priority.all, List.flatMap_cons, List.flatMap_nil, List.append_nil] at ih ⊢
    simp only [hcons]
    cases hp : r.priority with
    | high => simpa using ih
    | medium =>
      have hhigh := hnone .high (by simp [hp, Priority.rank])
      simpa [hhigh] using ih
    | low =>
      have hhigh := hnone .high (by simp [hp, Priority.rank])
      have hmedium := hnone .medium (by simp [hp, Priority.rank])
      simpa [hhigh, hmedium] using ih

end sorting

section blocks

theorem ofPriority_ofTotal (target : Float) (record : Record) (p : Priority) :
    ofPriority p (ofTotal target record) = if p = .low then ofTotal target record else [] := by
  unfold ofTotal ofPriority
  by_cases h : record.percentage < target
  · cases p <;> simp [h]
  · simp [h]

/-- The recommendations for some items, and those of one priority for the items of this priority. -/
theorem forall₂_ofPriority {runner : String} (p : Priority)
    (h : List.Forall₂ (fun u r ↦ u.recommendation runner = .ok r) us rs) :
    List.Forall₂ (fun u r ↦ u.recommendation runner = .ok r)
      (us.filter (·.kind.priority == p)) (ofPriority p rs) := by
  induction h with
  | nil => exact .nil
  | @cons u r us rs hr _ ih =>
    have hsame := Untested.priority_of_recommendation hr
    by_cases hp : u.kind.priority = p
    · rw [ofPriority, List.filter_cons_of_pos (by simpa using hp),
        List.filter_cons_of_pos (by simpa [hsame] using hp)]
      exact .cons hr ih
    · rw [ofPriority, List.filter_cons_of_neg (by simpa using hp),
        List.filter_cons_of_neg (by simpa [hsame] using hp)]
      exact ih

/-- The list of recommendations as its three blocks: one for each untested command in tree order,
one for each untested argument in tree order, and the total if too little is covered. -/
structure Blocks (g : Goals) (c : Coverage) (rs high medium : List Recommendation) : Prop where
  commands : List.Forall₂ (fun u r ↦ u.recommendation g.runner = .ok r)
    (Untested.commands c.tree) high
  arguments : List.Forall₂ (fun u r ↦ u.recommendation g.runner = .ok r)
    (Untested.arguments c.tree) medium
  total : (ofTotal g.target c.records.overall).map (fun r ↦ (r.gap, r.priority, r.target)) =
    if c.records.overall.percentage < g.target then [(.coverage, .low, "overall")] else []
  eq_append : rs = high ++ medium ++ ofTotal g.target c.records.overall
  sorted : ∃ found, Recommendation.found g c = .ok found ∧ rs = found.mergeSort noLater
  chosen_high : (Priority.choice "high").map (chosen · rs) = .ok high
  chosen_medium : (Priority.choice "medium").map (chosen · rs) = .ok medium
  chosen_low : (Priority.choice "low").map (chosen · rs) = .ok (ofTotal g.target c.records.overall)
  chosen_all : (Priority.choice "all").map (chosen · rs) = .ok rs
  chosen_none : chosen none rs = rs

theorem blocks_mergeSort (h : Recommendation.found g c = .ok found) :
    Blocks g c (found.mergeSort noLater) (ofPriority .high found) (ofPriority .medium found) := by
  obtain ⟨items, hitems, rfl⟩ := found_eq_ok_iff.1 h
  have hblock (p : Priority) : ofPriority p (items ++ ofTotal g.target c.records.overall) =
      ofPriority p items ++ if p = .low then ofTotal g.target c.records.overall else [] := by
    rw [← ofPriority_ofTotal, ofPriority, List.filter_append]
    rfl
  have hhigh := forall₂_ofPriority .high hitems
  have hmedium := forall₂_ofPriority .medium hitems
  have hlow := forall₂_ofPriority .low hitems
  rw [Untested.filter_high_ofTree] at hhigh
  rw [Untested.filter_medium_ofTree] at hmedium
  rw [Untested.filter_low_ofTree, List.forall₂_nil_left_iff] at hlow
  have hchosen (p : Priority) :
      (Priority.choice p.word).map
        (chosen · ((items ++ ofTotal g.target c.records.overall).mergeSort noLater)) =
        .ok (ofPriority p (items ++ ofTotal g.target c.records.overall)) := by
    have hchoice : Priority.choice p.word = .ok (some p) := by cases p <;> rfl
    rw [hchoice, Except.map, chosen, ofPriority_mergeSort]
  have hsorted := List.pairwise_mergeSort noLater_trans noLater_total
    (items ++ ofTotal g.target c.records.overall)
  have hall := flatMap_ofPriority_of_pairwise hsorted
  simp only [ofPriority_mergeSort, Priority.all, List.flatMap_cons, List.flatMap_nil] at hall
  have hlast : ofPriority .low (items ++ ofTotal g.target c.records.overall) =
      ofTotal g.target c.records.overall := by
    rw [hblock, hlow, if_pos rfl, List.nil_append]
  constructor
  · rwa [hblock, if_neg (by decide), List.append_nil]
  · rwa [hblock, if_neg (by decide), List.append_nil]
  · unfold ofTotal
    split <;> rfl
  · rw [← hall, hlast]
    simp
  · exact ⟨_, h, rfl⟩
  · exact hchosen .high
  · exact hchosen .medium
  · exact (hchosen .low).trans (congrArg _ hlast)
  · rfl
  · rfl

/-- The recommendations are in blocks exactly if no option is untested whose default has too many
digits to be written: otherwise there are none. -/
theorem ofCoverage_blocks_iff (g : Goals) (c : Coverage) :
    (∃ rs high medium, ofCoverage g c = .ok rs ∧ Blocks g c rs high medium) ↔
      ∀ u ∈ Untested.ofTree c.tree, ¬u.Overlong := by
  rw [← @exists_ofCoverage_iff g c]
  constructor
  · rintro ⟨rs, -, -, hrs, -⟩
    exact ⟨rs, hrs⟩
  · rintro ⟨rs, hrs⟩
    obtain ⟨found, hfound, rfl⟩ := ofCoverage_eq_ok_iff.1 hrs
    exact ⟨_, _, _, hrs, blocks_mergeSort hfound⟩

theorem exists_not_blocks : ∃ root is, ∀ g, ¬∃ rs high medium,
    ofCoverage g (Coverage.compute root is) = .ok rs ∧
      Blocks g (Coverage.compute root is) rs high medium := by
  obtain ⟨u, hu, ho⟩ := exists_overlong
  refine ⟨overlongTree, [], fun g ⟨rs, _, _, hrs, _⟩ ↦ ?_⟩
  exact exists_ofCoverage_iff.1 ⟨rs, hrs⟩ u hu ho

end blocks

end Recommendation

end CommandCoverage
