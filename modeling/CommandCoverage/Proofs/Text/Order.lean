import CommandCoverage.Text.Order
import Mathlib.Data.List.Basic
import Mathlib.Data.List.Sort
import Mathlib.Data.String.Basic

namespace CommandCoverage.Text

theorem mem_withoutRepeats {ss : List String} {s : String} : s ∈ withoutRepeats ss ↔ s ∈ ss := by
  fun_induction withoutRepeats ss with
  | case1 => rfl
  | case2 => rfl
  | case3 a b r h ih => grind
  | case4 a b r h ih => grind

theorem withoutRepeats_pairwise {ss : List String} (h : ss.Pairwise (· ≤ ·)) :
    (withoutRepeats ss).Pairwise (· < ·) := by
  fun_induction withoutRepeats ss with
  | case1 => exact .nil
  | case2 => simp
  | case3 a b r hab ih => exact ih (List.pairwise_cons.1 h).2
  | case4 a b r hab ih =>
    obtain ⟨ha, hr⟩ := List.pairwise_cons.1 h
    refine List.pairwise_cons.2 ⟨fun s hs ↦ ?_, ih hr⟩
    have hb : a < b := lt_of_le_of_ne (ha b (by simp)) (by simpa using hab)
    have hs' : b ≤ s := by
      rcases List.mem_cons.1 (mem_withoutRepeats.1 hs) with rfl | hs
      · exact String.le_refl _
      · exact (List.pairwise_cons.1 hr).1 s hs
    exact lt_of_lt_of_le hb hs'

theorem mem_sortedSet {ss : List String} {s : String} : s ∈ sortedSet ss ↔ s ∈ ss := by
  simp [sortedSet, sorted, mem_withoutRepeats, List.mem_mergeSort]

theorem sortedSet_pairwise (ss : List String) : (sortedSet ss).Pairwise (· < ·) := by
  have htrans (a b c : String) (hab : decide (a ≤ b)) (hbc : decide (b ≤ c)) : decide (a ≤ c) := by
    simp only [decide_eq_true_eq] at *
    exact le_trans hab hbc
  have htotal (a b : String) : (decide (a ≤ b) || decide (b ≤ a)) = true := by
    simpa using le_total a b
  exact withoutRepeats_pairwise
    (by simpa [sorted] using List.pairwise_mergeSort htrans htotal ss)

theorem sortedSet_congr {ss ts : List String} (h : ∀ s, s ∈ ss ↔ s ∈ ts) :
    sortedSet ss = sortedSet ts := by
  refine (sortedSet_pairwise ss).eq_of_mem_iff (sortedSet_pairwise ts) ?_
  simpa only [mem_sortedSet] using h

theorem sortedSet_append_sortedSet (ss ts : List String) :
    sortedSet (sortedSet ss ++ sortedSet ts) = sortedSet (ss ++ ts) :=
  sortedSet_congr fun s ↦ by simp only [List.mem_append, mem_sortedSet]

end CommandCoverage.Text
