import CommandCoverage.Proofs.Page.Markup
import CommandCoverage.Proofs.Report.Samples
import CommandCoverage.Report.Render

namespace CommandCoverage

open Piece

def ReportForm.Textual : ReportForm → Prop
  | text | markdown | html => True
  | json | yaml => False

namespace Recommendation

def SaysAllTested (output : String) : ReportForm → Prop
  | .text | .markdown => output = allTested
  | .html => output = (Page.preformatted "Recommendations" allTested).render
  | .json | .yaml => False

def Among (p : Option Priority) (q : Priority) : Prop := ∀ x ∈ p, x = q

variable {g : Goals} {c : Coverage} {p : Option Priority} {q : Priority} {rs : List Recommendation}
  {r : Recommendation} {form : ReportForm} {word : String} {verbose : Bool}

section lists

theorem mem_ofPriority : r ∈ ofPriority q rs ↔ r ∈ rs ∧ r.priority = q := by
  simp [ofPriority]

theorem mem_chosen : r ∈ chosen p rs ↔ r ∈ rs ∧ Among p r.priority := by
  cases p with
  | none => simp [chosen, Among]
  | some q => simp [chosen, Among, mem_ofPriority, eq_comm]

theorem exists_mem_ofTotal {target : Float} {record : Record} :
    (∃ r ∈ ofTotal target record, Among p r.priority) ↔
      record.percentage < target ∧ Among p .low := by
  unfold ofTotal
  split <;> simp_all

theorem chosen_eq_nil_iff (hrs : ofCoverage g c = .ok rs) : chosen p rs = [] ↔
    (∀ u ∈ Untested.ofTree c.tree, ¬Among p u.kind.priority) ∧
      ¬(c.records.overall.percentage < g.target ∧ Among p .low) := by
  have hshort := exists_ofCoverage_iff.1 ⟨rs, hrs⟩
  rw [← exists_mem_ofTotal, List.eq_nil_iff_forall_not_mem]
  simp only [mem_chosen, mem_of_ofCoverage hrs]
  constructor
  · intro h
    refine ⟨fun u hu ha ↦ ?_, ?_⟩
    · obtain ⟨r, hr⟩ : ∃ r, u.recommendation g.runner = .ok r :=
        Untested.exists_recommendation_iff.2 (hshort u hu)
      exact h r ⟨.inl ⟨u, hu, hr⟩, Untested.priority_of_recommendation hr ▸ ha⟩
    · rintro ⟨r, hr, ha⟩
      exact h r ⟨.inr hr, ha⟩
  · rintro ⟨hitems, htotal⟩ r ⟨⟨u, hu, hr⟩ | hr, ha⟩
    · exact hitems u hu (Untested.priority_of_recommendation hr ▸ ha)
    · exact htotal ⟨r, hr, ha⟩

end lists

section rendering

theorem exists_unlines (s : String) (lines : List String) :
    ∃ rest, (Text.unlines (s :: lines)).toList = s.toList ++ rest := by
  rw [Text.unlines, String.toList_intercalate, List.map_cons]
  cases lines with
  | nil => exact ⟨[], by simp⟩
  | cons t lines =>
    rw [List.map_cons, List.intercalate_cons_cons, List.append_assoc]
    exact ⟨_, rfl⟩

def opening : Line :=
  [fixed "<!DOCTYPE html>", fixed "\n", fixed "<html lang=\"en\">", fixed "\n", fixed "<head>",
    fixed "\n", fixed "<meta charset=\"utf-8\">", fixed "\n", fixed "<title>"]

theorem exists_titled (title : String) (body : Page) :
    ∃ rest, (Page.titled title body).render.toList =
      opening.flatMap (·.render.toList) ++ ((escape title).toList ++ '<' :: rest) := by
  have hpieces : ∃ rest, (Page.titled title body).pieces =
      opening ++ shown title :: fixed "</title>" :: rest := ⟨_, rfl⟩
  obtain ⟨rest, hrest⟩ := hpieces
  rw [Page.toList_render, hrest, List.flatMap_append]
  exact ⟨_, rfl⟩

theorem listTitle_eq (word : String) :
    listTitle word = "Recommendations" ++ (" " ++ ("(priority: " ++ word ++ ")")) := by
  have hstart : "Recommendations (priority: " = "Recommendations" ++ (" " ++ "(priority: ") := by
    simp
  have htitle : listTitle word = _ := congrArg (· ++ word ++ ")") hstart
  rw [htitle]
  simp only [String.append_assoc]

theorem toList_escape_append (s t : String) :
    (escape (s ++ t)).toList = (escape s).toList ++ (escape t).toList := by
  simp only [escape, String.toList_append, List.flatMap_append, String.toList_ofList]

theorem unlines_listTitle_ne (word : String) (lines : List String) :
    Text.unlines (listTitle word :: lines) ≠ allTested := by
  intro he
  obtain ⟨rest, hrest⟩ := exists_unlines (listTitle word) lines
  have hchars := hrest.symm.trans (congrArg String.toList he)
  simp only [listTitle_eq, String.toList_append, List.append_assoc] at hchars
  have hfirst := congrArg List.head? hchars
  have hnone : allTested.toList.head? = some 'N' := by decide
  rw [List.head?_append, hnone] at hfirst
  simp at hfirst

theorem listText_ne (markdown : Bool) (h : rs ≠ []) :
    listText word markdown verbose rs ≠ allTested := by
  have hempty : rs.isEmpty = false := by simpa using h
  rw [listText, hempty, if_neg Bool.false_ne_true, heading, List.cons_append]
  exact unlines_listTitle_ne word _

theorem titled_listTitle_ne (word : String) (body body' : Page) :
    (Page.titled (listTitle word) body).render ≠ (Page.titled "Recommendations" body').render := by
  intro he
  obtain ⟨rest, hlist⟩ := exists_titled (listTitle word) body
  obtain ⟨rest', hall⟩ := exists_titled "Recommendations" body'
  have hspace : (escape " ").toList = [' '] := by decide
  have htitles :=
    List.append_cancel_left (hlist.symm.trans ((congrArg String.toList he).trans hall))
  rw [listTitle_eq, toList_escape_append, toList_escape_append, hspace,
    List.append_assoc] at htitles
  have hnext := (List.cons.inj (List.append_cancel_left htitles)).1
  exact absurd hnext (by decide)

theorem listPage_ne (h : rs ≠ []) :
    (listPage word rs).render ≠ (Page.preformatted "Recommendations" allTested).render := by
  have hempty : rs.isEmpty = false := by simpa using h
  rw [listPage, hempty, if_neg Bool.false_ne_true, Page.preformatted]
  exact titled_listTitle_ne word _ _

theorem saysAllTested_iff (hf : form.Textual) :
    SaysAllTested (render word verbose rs form) form ↔ rs = [] := by
  constructor
  · intro h
    by_contra hne
    cases form with
    | text => exact listText_ne false hne h
    | markdown => exact listText_ne true hne h
    | html => exact listPage_ne hne h
    | json => exact hf
    | yaml => exact hf
  · rintro rfl
    cases form with
    | text | markdown | html => rfl
    | json | yaml => exact hf

end rendering

/-- The list of one priority is empty for two reasons: nothing is untested, or nothing of that
priority is. Only the first makes what it says true. -/
theorem says_truly_iff (hf : form.Textual) (hrs : ofCoverage g c = .ok rs) :
    (SaysAllTested (render word verbose (chosen p rs) form) form →
        Untested.ofTree c.tree = []) ↔
      p = none ∨ Untested.ofTree c.tree = [] ∨
        (∃ u ∈ Untested.ofTree c.tree, p = some u.kind.priority) ∨
          (p = some .low ∧ c.records.overall.percentage < g.target) := by
  rw [saysAllTested_iff hf, chosen_eq_nil_iff hrs]
  cases p with
  | none =>
    -- Every priority is chosen, so that each untested item leaves an entry.
    have hnone : (∀ u ∈ Untested.ofTree c.tree, ¬Among none u.kind.priority) →
        Untested.ofTree c.tree = [] :=
      fun h ↦ List.eq_nil_iff_forall_not_mem.2 fun u hu ↦ h u hu (by simp [Among])
    exact ⟨fun _ ↦ .inl rfl, fun _ h ↦ hnone h.1⟩
  | some q =>
    have hamong : ∀ q', Among (some q) q' ↔ q = q' := by simp [Among]
    simp only [hamong, Option.some.injEq, reduceCtorEq, false_or]
    constructor
    · intro h
      by_cases hitem : ∃ u ∈ Untested.ofTree c.tree, q = u.kind.priority
      · exact .inr (.inl hitem)
      by_cases htotal : c.records.overall.percentage < g.target ∧ q = .low
      · exact .inr (.inr htotal.symm)
      · exact .inl (h ⟨fun u hu hq ↦ hitem ⟨u, hu, hq⟩, htotal⟩)
    · rintro (hall | ⟨u, hu, hq⟩ | htotal) ⟨hitems, hlow⟩
      · exact hall
      · exact absurd hq (hitems u hu)
      · exact absurd htotal.symm hlow

def untriedCommand : Coverage where
  tree := { name := "cli" }

theorem untested_untriedCommand :
    (Untested.ofTree untriedCommand.tree).map (·.kind.priority) = [.high] := by
  decide

theorem exists_ofCoverage_untriedCommand : ∃ rs, ofCoverage {} untriedCommand = .ok rs :=
  ⟨_, rfl⟩

theorem says_truly_iff_high :
    ∃ rs, ReportForm.html.Textual ∧ ofCoverage {} untriedCommand = .ok rs ∧
      ((SaysAllTested (render "high" false (chosen (some .high) rs) .html) .html →
          Untested.ofTree untriedCommand.tree = []) ↔
        some Priority.high = none ∨ Untested.ofTree untriedCommand.tree = [] ∨
          (∃ u ∈ Untested.ofTree untriedCommand.tree, some Priority.high = some u.kind.priority) ∨
            (some Priority.high = some .low ∧
              untriedCommand.records.overall.percentage < ({} : Goals).target)) := by
  obtain ⟨rs, hrs⟩ := exists_ofCoverage_untriedCommand
  exact ⟨rs, trivial, hrs, says_truly_iff trivial hrs⟩

/-- The command is untested, and the list of the flags and options to test says that everything is
tested. -/
theorem exists_says_untested : ∃ (g : Goals) (c : Coverage) (p : Option Priority) (word : String)
    (verbose : Bool) (form : ReportForm) (rs : List Recommendation), form.Textual ∧
      ofCoverage g c = .ok rs ∧ SaysAllTested (render word verbose (chosen p rs) form) form ∧
        Untested.ofTree c.tree ≠ [] := by
  have htext : ReportForm.text.Textual := trivial
  obtain ⟨rs, hrs⟩ := exists_ofCoverage_untriedCommand
  refine ⟨{}, untriedCommand, some .medium, "medium", false, .text, rs, htext, hrs, ?_, ?_⟩
  · refine (saysAllTested_iff htext).2 ((chosen_eq_nil_iff hrs).2 ⟨fun u hu h ↦ ?_, ?_⟩)
    · have hhigh : u.kind.priority ∈ [Priority.high] :=
        untested_untriedCommand ▸ List.mem_map_of_mem hu
      have hmedium : Priority.medium = .high := (h _ rfl).trans (List.mem_singleton.1 hhigh)
      contradiction
    · rintro ⟨-, h⟩
      have hlow : Priority.medium = .low := h _ rfl
      contradiction
  · intro h
    have hnil := untested_untriedCommand
    rw [h] at hnil
    contradiction

end Recommendation

end CommandCoverage
