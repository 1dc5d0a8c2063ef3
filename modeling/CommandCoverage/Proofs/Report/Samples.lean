import CommandCoverage.Report.Recommendation
import Mathlib.Data.List.Forall2

namespace CommandCoverage

section mapM

variable {ε α β : Type} {f : α → Except ε β} {as : List α} {bs : List β}

theorem exists_of_forall₂ {R : α → β → Prop} (h : List.Forall₂ R as bs) {a : α}
    (ha : a ∈ as) : ∃ b ∈ bs, R a b := by
  induction h with
  | nil => cases ha
  | @cons _ b _ _ hab _ ih =>
    rcases List.mem_cons.1 ha with rfl | ha
    · exact ⟨b, List.mem_cons_self, hab⟩
    · obtain ⟨b, hb, hab⟩ := ih ha
      exact ⟨b, List.mem_cons_of_mem _ hb, hab⟩

theorem mapM_eq_ok_iff : as.mapM f = .ok bs ↔ List.Forall₂ (fun a b ↦ f a = .ok b) as bs := by
  induction as generalizing bs with
  | nil => cases bs <;> simp [pure, Except.pure]
  | cons a as ih =>
    rw [List.mapM_cons, List.forall₂_cons_left_iff]
    simp only [← ih]
    cases f a with
    | error e => simp [bind, Except.bind]
    | ok b => cases as.mapM f <;> simp [bind, Except.bind, pure, Except.pure, eq_comm]

theorem exists_mapM_eq_ok_iff : (∃ bs, as.mapM f = .ok bs) ↔ ∀ a ∈ as, ∃ b, f a = .ok b := by
  simp only [mapM_eq_ok_iff]
  constructor
  · rintro ⟨bs, h⟩ a ha
    induction h with
    | nil => cases ha
    | cons hb _ ih =>
      rcases List.mem_cons.1 ha with rfl | ha
      · exact ⟨_, hb⟩
      · exact ih ha
  · intro h
    induction as with
    | nil => exact ⟨[], .nil⟩
    | cons a as ih =>
      obtain ⟨⟨b, hb⟩, hrest⟩ := List.forall_mem_cons.1 h
      obtain ⟨bs, hbs⟩ := ih hrest
      exact ⟨b :: bs, .cons hb hbs⟩

theorem exists_of_mapM_eq_error {e : ε} (h : as.mapM f = .error e) : ∃ a ∈ as, f a = .error e := by
  induction as with
  | nil => cases h
  | cons a as ih =>
    rw [List.mapM_cons] at h
    cases ha : f a with
    | error e' =>
      rw [ha] at h
      exact ⟨a, List.mem_cons_self, ha.trans (congrArg _ (Except.error.inj h))⟩
    | ok b =>
      rw [ha] at h
      cases hrest : as.mapM f with
      | error e' =>
        rw [hrest] at h
        obtain rfl := Except.error.inj h
        obtain ⟨a', hmem, ha'⟩ := ih hrest
        exact ⟨a', List.mem_cons_of_mem _ hmem, ha'⟩
      | ok bs =>
        rw [hrest] at h
        cases h

end mapM

def Arg.Overlong (a : Arg) : Prop :=
  ∃ n : Int, a.default = .int n ∧ Nat.pow 10 Script.longestInteger ≤ n.natAbs

def Untested.Overlong (u : Untested) : Prop :=
  ∃ a, u.arg = some a ∧ a.isFlag = false ∧ a.Overlong

variable {n : Int} {a : Arg} {u : Untested} {runner : String}

theorem exists_integerText_iff :
    (∃ s, integerText n = .ok s) ↔ ¬Nat.pow 10 Script.longestInteger ≤ n.natAbs := by
  unfold integerText
  split <;> simp_all

theorem Arg.exists_sample_iff : (∃ s, a.sample = .ok s) ↔ ¬a.Overlong := by
  unfold Arg.sample Arg.Overlong
  cases a.default <;> simp [exists_integerText_iff]

theorem Arg.overlong_power {k : Nat} (hd : a.default = .int (.ofNat (Nat.pow 10 k)))
    (hk : Script.longestInteger ≤ k) : a.Overlong := by
  refine ⟨_, hd, ?_⟩
  rw [Int.ofNat_eq_natCast, Int.natAbs_natCast, Nat.pow_eq, Nat.pow_eq]
  exact Nat.pow_le_pow_right (by decide) hk

theorem Arg.sample_eq_error {f : Failure} (h : a.sample = .error f) :
    ∃ message, f = .unexpected "ValueError" message := by
  unfold Arg.sample at h
  split at h
  · cases h
  · unfold integerText at h
    split at h
    · exact ⟨_, (Except.error.inj h).symm⟩
    · cases h
  · cases h
  · cases h

namespace Untested

theorem exists_tokens_iff : (∃ ts, u.tokens = .ok ts) ↔ ¬u.Overlong := by
  unfold tokens Overlong
  cases u.arg with
  | none => simp
  | some a =>
    cases hf : a.isFlag with
    | true => simp [hf]
    | false =>
      have hsample := @Arg.exists_sample_iff a
      cases hs : a.sample <;> simp_all [Except.map]

theorem exists_recommendation_iff : (∃ r, u.recommendation runner = .ok r) ↔ ¬u.Overlong := by
  rw [← exists_tokens_iff, recommendation, snippet]
  cases u.tokens <;> simp [Except.map]

theorem recommendation_eq_error {f : Failure} (h : u.recommendation runner = .error f) :
    ∃ message, f = .unexpected "ValueError" message := by
  unfold recommendation snippet tokens at h
  cases harg : u.arg with
  | none => simp [harg, Except.map] at h
  | some a =>
    cases hf : a.isFlag with
    | true => simp [harg, hf, Except.map] at h
    | false =>
      cases hs : a.sample with
      | ok value => simp [harg, hf, hs, Except.map] at h
      | error e =>
        obtain rfl : e = f := by simpa [harg, hf, hs, Except.map] using h
        exact Arg.sample_eq_error hs

theorem priority_of_recommendation {runner : String} {r : Recommendation}
    (h : u.recommendation runner = .ok r) : r.priority = u.kind.priority := by
  unfold recommendation at h
  cases hs : u.snippet runner with
  | error f => simp [hs, Except.map] at h
  | ok text =>
    rw [hs] at h
    exact Except.ok.inj h ▸ rfl

end Untested

namespace Recommendation

variable {g : Goals} {c : Coverage} {rs found : List Recommendation}

theorem found_eq_ok_iff : Recommendation.found g c = .ok found ↔ ∃ items,
    List.Forall₂ (fun u r ↦ u.recommendation g.runner = .ok r) (Untested.ofTree c.tree) items ∧
      found = items ++ ofTotal g.target c.records.overall := by
  unfold Recommendation.found
  simp only [← mapM_eq_ok_iff]
  cases (Untested.ofTree c.tree).mapM (·.recommendation g.runner) <;>
    simp [bind, Except.bind, pure, Except.pure, eq_comm]

theorem ofCoverage_eq_ok_iff : ofCoverage g c = .ok rs ↔
    ∃ found, Recommendation.found g c = .ok found ∧ rs = found.mergeSort noLater := by
  unfold ofCoverage
  cases Recommendation.found g c <;> simp [Except.map, eq_comm]

theorem mem_of_ofCoverage (h : ofCoverage g c = .ok rs) {r : Recommendation} : r ∈ rs ↔
    (∃ u ∈ Untested.ofTree c.tree, u.recommendation g.runner = .ok r) ∨
      r ∈ ofTotal g.target c.records.overall := by
  obtain ⟨found, hfound, rfl⟩ := ofCoverage_eq_ok_iff.1 h
  obtain ⟨items, hitems, rfl⟩ := found_eq_ok_iff.1 hfound
  rw [List.mem_mergeSort, List.mem_append]
  refine or_congr_left ⟨fun hr ↦ exists_of_forall₂ hitems.flip hr, ?_⟩
  rintro ⟨u, hu, hr⟩
  obtain ⟨s, hs, hsame⟩ := exists_of_forall₂ hitems hu
  obtain rfl := Except.ok.inj (hr.symm.trans hsame)
  exact hs

/-- There are recommendations unless an option is untested whose default cannot be written. -/
theorem exists_ofCoverage_iff :
    (∃ rs, ofCoverage g c = .ok rs) ↔ ∀ u ∈ Untested.ofTree c.tree, ¬u.Overlong := by
  simp only [ofCoverage_eq_ok_iff, found_eq_ok_iff, ← mapM_eq_ok_iff]
  simp only [← @Untested.exists_recommendation_iff _ g.runner, ← exists_mapM_eq_ok_iff]
  constructor
  · rintro ⟨rs, found, ⟨items, hitems, -⟩, -⟩
    exact ⟨items, hitems⟩
  · rintro ⟨items, hitems⟩
    exact ⟨_, _, ⟨items, hitems, rfl⟩, rfl⟩

theorem ofCoverage_eq_error {f : Failure} (h : ofCoverage g c = .error f) :
    ∃ message, f = .unexpected "ValueError" message := by
  unfold ofCoverage Recommendation.found at h
  cases hm : (Untested.ofTree c.tree).mapM (·.recommendation g.runner) with
  | ok items => simp [hm, bind, Except.bind, pure, Except.pure, Except.map] at h
  | error e =>
    obtain rfl : e = f := by simpa [hm, bind, Except.bind, Except.map] using h
    obtain ⟨u, -, hu⟩ := exists_of_mapM_eq_error hm
    exact u.recommendation_eq_error hu

end Recommendation

def limitTree (n : Int) : Command where
  name := "cli"
  options := [{ name := "max", default := .int n }]

def overlongTree : Command := limitTree (.ofNat (Nat.pow 10 Script.longestInteger))

theorem exists_overlong : ∃ u ∈ Untested.ofTree overlongTree, u.Overlong :=
  ⟨_, List.mem_cons_of_mem _ List.mem_cons_self, _, rfl, rfl, Arg.overlong_power rfl (Nat.le_refl _)⟩

end CommandCoverage
