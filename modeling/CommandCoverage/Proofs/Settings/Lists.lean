import CommandCoverage.Proofs.Files.Names
import CommandCoverage.Proofs.Text.Blank
import CommandCoverage.Settings.Basic

namespace CommandCoverage

open Text

namespace Patterns

structure IsItem (s : String) : Prop where
  ne : s ≠ ""
  comma : ',' ∉ s.toList
  bare : Bare s.toList

/-- Texts that write items: each in its place with blanks around it, and blanks or nothing between
them. -/
inductive Spaced : List String → List String → Prop
  | nil : Spaced [] []
  | blank {p : String} {ps items : List String} (hp : Blank p.toList) (h : Spaced ps items) :
      Spaced (p :: ps) items
  | item {u x v : String} {ps items : List String} (hu : Blank u.toList) (hv : Blank v.toList)
      (h : Spaced ps items) : Spaced ((u ++ x ++ v) :: ps) (x :: items)

variable {s p : String} {ps items : List String}

theorem clean_cons (p : String) (ps : List String) : clean (p :: ps) =
    if trim p.toList = [] then clean ps else stripped p :: clean ps := by
  unfold clean
  rw [List.map_cons, List.filter_cons]
  split <;> simp_all [stripped]

theorem isItem_of_mem_clean (hp : ∀ p ∈ ps, ',' ∉ p.toList) (hs : s ∈ clean ps) : IsItem s := by
  obtain ⟨hstripped, hne⟩ := List.mem_filter.1 hs
  obtain ⟨p, hmem, rfl⟩ := List.mem_map.1 hstripped
  refine ⟨by simpa using hne, fun hc ↦ hp p hmem (mem_of_mem_trim ?_), ?_⟩
  · simpa [stripped] using hc
  · simpa [stripped] using bare_trim p.toList

theorem Spaced.clean_eq (h : Spaced ps items) (hi : ∀ x ∈ items, IsItem x) : clean ps = items := by
  induction h with
  | nil => rfl
  | blank hp _ ih => rw [clean_cons, if_pos (trim_of_blank hp), ih hi]
  | @item u x v ps items hu hv _ ih =>
    have hx := hi x List.mem_cons_self
    have htrim : trim (u ++ x ++ v).toList = x.toList := by
      rw [String.toList_append, String.toList_append, trim_padded hu hv hx.bare]
    rw [clean_cons, htrim, if_neg (by simpa using hx.ne), stripped, htrim, String.ofList_toList,
      ih fun y hy ↦ hi y (List.mem_cons_of_mem _ hy)]

theorem Spaced.refl (items : List String) : Spaced items items := by
  induction items with
  | nil => exact .nil
  | cons x items ih => simpa using Spaced.item (u := "") (x := x) (v := "") nofun nofun ih

theorem Spaced.comma (h : Spaced ps items) (hi : ∀ x ∈ items, IsItem x) :
    ∀ p ∈ ps, ',' ∉ p.toList := by
  have hblank {cs : List Char} (h : Blank cs) : ',' ∉ cs := fun hc ↦ absurd (h ',' hc) (by decide)
  induction h with
  | nil => exact nofun
  | blank hp _ ih => exact List.forall_mem_cons.2 ⟨hblank hp, ih hi⟩
  | @item u x v ps items hu hv _ ih =>
    refine List.forall_mem_cons.2 ⟨?_, ih fun y hy ↦ hi y (List.mem_cons_of_mem _ hy)⟩
    have hx := (hi x List.mem_cons_self).comma
    simp [hblank hu, hblank hv, hx]

theorem split_list (ps : List String) : split (.list (ps.map .text)) = .ok (clean ps) := by
  simp [split, itemText, Function.comp_def]

theorem split_intercalate (hp : ∀ p ∈ ps, ',' ∉ p.toList) :
    split (.text (",".intercalate ps)) = .ok (clean ps) := by
  by_cases hps : ps = []
  · subst hps
    rfl
  · have hchars : ∀ cs ∈ ps.map String.toList, ',' ∉ cs := by simpa using hp
    rw [split, String.toList_intercalate, show ",".toList = [','] from rfl,
      List.splitOn_intercalate ',' hchars (by simpa using hps)]
    simp

theorem exists_split (s : String) :
    ∃ items, split (.text s) = .ok items ∧ ∀ x ∈ items, IsItem x := by
  refine ⟨_, rfl, fun x hx ↦ isItem_of_mem_clean (fun p hp ↦ ?_) hx⟩
  obtain ⟨cs, hcs, rfl⟩ := List.mem_map.1 hp
  simpa using Path.not_mem_of_mem_splitOn hcs

end Patterns

namespace Settings

def listFields : List String := ["include_patterns", "exclude_patterns", "runner_names"]

variable {value value' : String → Option Value} {field name : String} {v v' : Value}
  {env : List (String × String)} {given : List (String × Value)}

theorem ofValues_congr (hf : field ∈ listFields) (hv : value field = some v)
    (hv' : value' field = some v') (hs : Patterns.split v = Patterns.split v')
    (h : ∀ name ∈ fieldNames, name ≠ field → value name = value' name) :
    ofValues value = ofValues value' := by
  simp only [listFields, List.mem_cons, List.not_mem_nil, or_false] at hf
  rcases hf with rfl | rfl | rfl
  all_goals
    simp only [fieldNames, List.mem_cons, List.not_mem_nil, or_false, ne_eq, forall_eq_or_imp,
      String.reduceEq, not_false_eq_true, forall_const, not_true_eq_false, IsEmpty.forall_iff,
      forall_eq, true_and] at h
    simp only [ofValues, hv, hv', hs, h]

theorem eq_of_variable_eq (hn : name ∈ fieldNames) (hf : field ∈ listFields)
    (h : variable_ name = variable_ field) : name = field := by
  have hall : ∀ f ∈ listFields, ∀ n ∈ fieldNames, variable_ n = variable_ f → n = f := by
    decide +kernel
  exact hall field hf name hn h

theorem valueOf_cons_given (hv : v ≠ .null) (name : String) :
    valueOf env ((field, v) :: given) name =
      if name = field then some v else valueOf env given name := by
  unfold valueOf
  by_cases hn : name = field
  · cases v with
    | null => exact absurd rfl hv
    | bool | int | float | text | list => simp [hn]
  · have hne : (name == field) = false := by simpa using hn
    simp [List.lookup_cons, hne, hn]

/-- A variable counts where nothing else is given for its field, and for no other field. -/
theorem valueOf_cons_env {s : String} (hs : s ≠ "") (hf : field ∈ listFields)
    (hg : given.lookup field = none ∨ given.lookup field = some .null) (hn : name ∈ fieldNames) :
    valueOf ((variable_ field, s) :: env) given name =
      if name = field then some (.text s) else valueOf env given name := by
  unfold valueOf
  by_cases h : name = field
  · subst h
    rcases hg with hg | hg <;> simp [hg, hs]
  · have hne : (variable_ name == variable_ field) = false := by
      simpa using fun he ↦ h (eq_of_variable_eq hn hf he)
    simp [List.lookup_cons, hne, h]

theorem mem_fieldNames (h : field ∈ listFields) : field ∈ fieldNames := by
  have hall : ∀ f ∈ listFields, f ∈ fieldNames := by decide
  exact hall field h

/-- A text, the list of its items and the items written out again are cut into the same items. So a
list may be given in each of these forms, or by its variable: the settings are the same, or refused
for the same reason. -/
theorem lists_alike (s : String) : ∃ items, Patterns.split (.text s) = .ok items ∧
    (∀ x ∈ items, Patterns.IsItem x) ∧
    Patterns.split (.list (items.map .text)) = .ok items ∧
    (∀ ps, Patterns.Spaced ps items →
      Patterns.split (.text (",".intercalate ps)) = .ok items ∧
        Patterns.split (.list (ps.map .text)) = .ok items) ∧
    ∀ field ∈ listFields, ∀ env given,
      read env ((field, .list (items.map .text)) :: given) =
          read env ((field, .text s) :: given) ∧
        (s ≠ "" → given.lookup field = none ∨ given.lookup field = some .null →
          read ((variable_ field, s) :: env) given = read env ((field, .text s) :: given)) := by
  obtain ⟨items, hs, hi⟩ := Patterns.exists_split s
  have hspaced (ps : List String) (h : Patterns.Spaced ps items) :
      Patterns.split (.text (",".intercalate ps)) = .ok items ∧
        Patterns.split (.list (ps.map .text)) = .ok items := by
    rw [Patterns.split_intercalate (h.comma hi), Patterns.split_list, h.clean_eq hi]
    exact ⟨rfl, rfl⟩
  have hlist := (hspaced items (.refl items)).2
  have htext : Value.text s ≠ .null := nofun
  have hvalues : Value.list (items.map .text) ≠ .null := nofun
  refine ⟨items, hs, hi, hlist, hspaced, fun field hf env given ↦ ⟨?_, fun hne hg ↦ ?_⟩⟩
  · refine ofValues_congr hf ((valueOf_cons_given hvalues field).trans (if_pos rfl))
      ((valueOf_cons_given htext field).trans (if_pos rfl)) (hlist.trans hs.symm)
      fun name _ hname ↦ ?_
    rw [valueOf_cons_given hvalues, valueOf_cons_given htext, if_neg hname, if_neg hname]
  · refine ofValues_congr hf
      ((valueOf_cons_env hne hf hg (mem_fieldNames hf)).trans (if_pos rfl))
      ((valueOf_cons_given htext field).trans (if_pos rfl)) rfl fun name hn hname ↦ ?_
    rw [valueOf_cons_env hne hf hg hn, valueOf_cons_given htext]

/-- Blanks of several kinds, an item that is empty, and a list that the environment sets. -/
theorem lists_alike_runners :
    let s := " run\u2003,,\u001fcall ,"
    let items := ["run", "call"]
    let ps := ["\t", "\u3000" ++ "run" ++ "", "", "" ++ "call" ++ "\n"]
    Patterns.Spaced ps items ∧ "runner_names" ∈ listFields ∧ s ≠ "" ∧
      Patterns.split (.text s) = .ok items ∧
      Patterns.split (.text (",".intercalate ps)) = .ok items ∧
      read [] [("runner_names", .list (items.map .text))] = read [] [("runner_names", .text s)] ∧
      read [(variable_ "runner_names", s)] [] = read [] [("runner_names", .text s)] := by
  intro s items ps
  have hps : Patterns.Spaced ps items := by
    exact .blank (by decide) (.item (by decide) nofun (.blank nofun (.item nofun (by decide) .nil)))
  obtain ⟨items', hs, -, -, hspaced, hread⟩ := lists_alike s
  have hitems : Patterns.split (.text s) = .ok items := by decide
  obtain rfl : items' = items := Except.ok.inj (hs.symm.trans hitems)
  obtain ⟨hlist, hvariable⟩ := hread "runner_names" (by decide) [] []
  exact ⟨hps, by decide, by decide, hitems, (hspaced ps hps).1, hlist,
    hvariable (by decide) (.inl rfl)⟩

end Settings

end CommandCoverage
