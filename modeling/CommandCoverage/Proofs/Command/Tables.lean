import CommandCoverage.Command.Basic
import Mathlib.Data.List.Basic
import Mathlib.Data.List.Nodup

namespace CommandCoverage

open Command

inductive ArgKind where
  | flag | option | positional
  deriving DecidableEq, Repr

def Arg.kind (a : Arg) : ArgKind :=
  if a.isPositional then .positional else if a.isFlag then .flag else .option

def Command.declared (c : Command) : ArgKind → List Arg
  | .flag => c.flags
  | .option => c.options
  | .positional => c.positionals

def lastDeclared : List Arg → List Arg
  | [] => []
  | a :: as => if a.name ∈ as.map (·.name) then lastDeclared as else a :: lastDeclared as

variable {a b : Arg} {as : List Arg} {c child x : Command} {cs children : List Command}
  {k : ArgKind} {name : String}

theorem mem_lastDeclared_iff : a ∈ lastDeclared as ↔
    ∃ before after, as = before ++ a :: after ∧ ∀ b ∈ after, b.name ≠ a.name := by
  induction as with
  | nil => simp [lastDeclared]
  | cons d as ih =>
    have hcons : (∃ before after, d :: as = before ++ a :: after ∧ ∀ b ∈ after, b.name ≠ a.name) ↔
        (d = a ∧ ∀ b ∈ as, b.name ≠ a.name) ∨ a ∈ lastDeclared as := by
      rw [ih]
      constructor
      · rintro ⟨_ | ⟨e, before⟩, after, he, ha⟩
        · obtain ⟨rfl, rfl⟩ := List.cons_eq_cons.1 he
          exact .inl ⟨rfl, ha⟩
        · obtain ⟨rfl, rfl⟩ := List.cons_eq_cons.1 he
          exact .inr ⟨before, after, rfl, ha⟩
      · rintro (⟨rfl, ha⟩ | ⟨before, after, rfl, ha⟩)
        · exact ⟨[], as, rfl, ha⟩
        · exact ⟨d :: before, after, rfl, ha⟩
    rw [hcons, lastDeclared]
    split
    · rename_i hd
      obtain ⟨b, hb, hn⟩ := List.mem_map.1 hd
      refine ⟨.inr, fun h ↦ h.resolve_left ?_⟩
      rintro ⟨rfl, ha⟩
      exact ha b hb hn
    · rename_i hd
      rw [List.mem_cons]
      constructor
      · rintro (rfl | ha)
        · exact .inl ⟨rfl, fun b hb hn ↦ hd (List.mem_map.2 ⟨b, hb, hn⟩)⟩
        · exact .inr ha
      · exact Or.imp_left fun h ↦ h.1.symm

theorem mem_names_lastDeclared :
    name ∈ (lastDeclared as).map (·.name) ↔ name ∈ as.map (·.name) := by
  induction as with
  | nil => rfl
  | cons a as ih =>
    rw [lastDeclared]
    split
    · rename_i ha
      rw [ih, List.map_cons, List.mem_cons]
      exact ⟨.inr, fun h ↦ h.elim (fun he ↦ he ▸ ha) id⟩
    · rw [List.map_cons, List.map_cons, List.mem_cons, List.mem_cons, ih]

theorem nodup_lastDeclared (as : List Arg) : ((lastDeclared as).map (·.name)).Nodup := by
  induction as with
  | nil => exact .nil
  | cons a as ih =>
    rw [lastDeclared]
    split
    · exact ih
    · rename_i ha
      exact List.nodup_cons.2 ⟨fun h ↦ ha (mem_names_lastDeclared.1 h), ih⟩

/-- The tables of a command hold the last declaration of each name of a list: in the table of its
kind, in the order of these declarations, and nothing else. -/
structure Command.Tabulates (c : Command) (as : List Arg) : Prop where
  tables : ∀ k, c.declared k = (lastDeclared as).filter (·.kind = k)
  mem_iff : ∀ k a, a ∈ c.declared k ↔ a.kind = k ∧
    ∃ before after, as = before ++ a :: after ∧ ∀ b ∈ after, b.name ≠ a.name
  names : ∀ name ∈ as.map (·.name), ∃! k, name ∈ (c.declared k).map (·.name)
  only : ∀ k, ∀ name ∈ (c.declared k).map (·.name), name ∈ as.map (·.name)
  nodup : ∀ k, ((c.declared k).map (·.name)).Nodup

namespace Command

theorem declared_addArg (c : Command) (a : Arg) (k : ArgKind) :
    (c.addArg a).declared k = without a.name (c.declared k) ++ if a.kind = k then [a] else [] := by
  have hk : a.kind = if a.isPositional then .positional else if a.isFlag then .flag else .option :=
    rfl
  unfold addArg
  split at hk
  · rw [if_pos ‹_›, hk]
    cases k <;> simp [declared]
  · rw [if_neg ‹_›]
    split at hk
    · rw [if_pos ‹_›, hk]
      cases k <;> simp [declared]
    · rw [if_neg ‹_›, hk]
      cases k <;> simp [declared]

/-- Of some declarations the last of each name is left, each kind in the order of these. -/
theorem declared_foldl_addArg (as : List Arg) (c : Command) (k : ArgKind) :
    (as.foldl addArg c).declared k =
      (c.declared k).filter (·.name ∉ as.map (·.name)) ++
        (lastDeclared as).filter (·.kind = k) := by
  induction as generalizing c with
  | nil => simp [lastDeclared]
  | cons a as ih =>
    have hfilter : ((c.addArg a).declared k).filter (·.name ∉ as.map (·.name)) =
        (c.declared k).filter (·.name ∉ (a :: as).map (·.name)) ++
          if a.name ∈ as.map (·.name) then [] else if a.kind = k then [a] else [] := by
      rw [declared_addArg, List.filter_append, without, List.filter_filter]
      congr 1
      · refine List.filter_congr fun b _ ↦ Bool.eq_iff_iff.2 ?_
        simp only [List.map_cons, List.mem_cons, not_or, Bool.and_eq_true, decide_eq_true_eq,
          bne_iff_ne]
        exact and_comm
      · split <;> split <;> simp_all
    rw [List.foldl_cons, ih, hfilter, List.append_assoc, lastDeclared]
    congr 1
    split
    · rfl
    · rw [List.filter_cons]
      split <;> simp_all

theorem tabulates_of_declared (h : ∀ k, c.declared k = (lastDeclared as).filter (·.kind = k)) :
    c.Tabulates as := by
  have hmem (k : ArgKind) (a : Arg) : a ∈ c.declared k ↔ a ∈ lastDeclared as ∧ a.kind = k := by
    rw [h, List.mem_filter, decide_eq_true_eq]
  refine ⟨h, fun k a ↦ ?_, fun name hn ↦ ?_, fun k name hn ↦ ?_, fun k ↦ ?_⟩
  · rw [hmem, mem_lastDeclared_iff, and_comm]
  · obtain ⟨a, ha, rfl⟩ := List.mem_map.1 (mem_names_lastDeclared.2 hn)
    refine ⟨a.kind, List.mem_map_of_mem ((hmem _ a).2 ⟨ha, rfl⟩), fun k hk ↦ ?_⟩
    obtain ⟨b, hb, hname⟩ := List.mem_map.1 hk
    obtain ⟨hlast, rfl⟩ := (hmem k b).1 hb
    rw [List.inj_on_of_nodup_map (nodup_lastDeclared as) hlast ha hname]
  · obtain ⟨a, ha, rfl⟩ := List.mem_map.1 hn
    exact mem_names_lastDeclared.1 (List.mem_map_of_mem ((hmem k a).1 ha).1)
  · rw [h]
    exact (nodup_lastDeclared as).sublist (List.filter_sublist.map _)

theorem tabulates_foldl_addArg (as : List Arg) (hc : ∀ k, c.declared k = []) :
    (as.foldl addArg c).Tabulates as := by
  refine tabulates_of_declared fun k ↦ ?_
  rw [declared_foldl_addArg, hc, List.filter_nil, List.nil_append]

end Command

theorem subcommands_addArg (c : Command) (a : Arg) : (c.addArg a).subcommands = c.subcommands := by
  unfold addArg
  dsimp only
  split
  · rfl
  · split <;> rfl

section putChild

theorem mem_putChild (h : x ∈ putChild child cs) : x = child ∨ x ∈ cs := by
  induction cs with
  | nil => exact .inl (List.mem_singleton.1 h)
  | cons c cs ih =>
    rw [putChild] at h
    split at h
    · exact (List.mem_cons.1 h).imp_right (List.mem_cons_of_mem _)
    · rcases List.mem_cons.1 h with rfl | h
      · exact .inr List.mem_cons_self
      · exact (ih h).imp_right (List.mem_cons_of_mem _)

theorem names_putChild (child : Command) (cs : List Command) :
    (putChild child cs).map (·.name) = if child.name ∈ cs.map (·.name) then cs.map (·.name)
      else cs.map (·.name) ++ [child.name] := by
  induction cs with
  | nil => rfl
  | cons c cs ih =>
    rw [putChild]
    by_cases h : c.name = child.name
    · simp [h]
    · have h' : child.name ≠ c.name := Ne.symm h
      simp only [beq_iff_eq, h, if_false, List.map_cons, ih, List.mem_cons, h', false_or]
      split <;> rfl

theorem nodup_names_putChild (child : Command) (h : (cs.map (·.name)).Nodup) :
    ((putChild child cs).map (·.name)).Nodup := by
  rw [names_putChild]
  split
  · exact h
  · rename_i hnew
    refine List.nodup_append.2 ⟨h, List.nodup_singleton _, ?_⟩
    grind

theorem find?_putChild (child : Command) (cs : List Command) (name : String) :
    (putChild child cs).find? (·.name == name) =
      if child.name = name then some child else cs.find? (·.name == name) := by
  induction cs with
  | nil =>
    rw [putChild, List.find?_singleton]
    simp
  | cons c cs ih =>
    rw [putChild]
    by_cases hc : c.name = child.name
    · rw [if_pos (by simpa using hc)]
      by_cases h : child.name = name
      · rw [List.find?_cons_of_pos (by simpa using h), if_pos h]
      · rw [List.find?_cons_of_neg (by simpa using h),
          List.find?_cons_of_neg (by simpa [hc] using h), if_neg h]
    · rw [if_neg (by simpa using hc)]
      by_cases hn : c.name = name
      · have hne : child.name ≠ name := fun he ↦ hc (hn.trans he.symm)
        rw [List.find?_cons_of_pos (by simpa using hn),
          List.find?_cons_of_pos (by simpa using hn), if_neg hne]
      · rw [List.find?_cons_of_neg (by simpa using hn),
          List.find?_cons_of_neg (by simpa using hn), ih]

theorem names_foldl_putChild (children cs : List Command) :
    (children.foldl (fun cs x ↦ putChild x cs) cs).map (·.name) =
      cs.map (·.name) ++
        ((children.map (·.name)).filter (· ∉ cs.map (·.name))).eraseDups := by
  induction children generalizing cs with
  | nil => simp
  | cons x children ih =>
    rw [List.foldl_cons, ih, names_putChild, List.map_cons]
    by_cases h : x.name ∈ cs.map (·.name)
    · rw [if_pos h, List.filter_cons_of_neg (by simpa using h)]
    · rw [if_neg h, List.filter_cons_of_pos (by simpa using h), List.eraseDups_cons,
        List.filter_filter, List.append_assoc, List.singleton_append]
      congr 3
      refine List.filter_congr fun n _ ↦ Bool.eq_iff_iff.2 ?_
      simp only [List.mem_append, List.mem_singleton, not_or, decide_eq_true_eq, Bool.and_eq_true,
        Bool.not_eq_true', beq_eq_false_iff_ne]
      exact and_comm

theorem find?_foldl_putChild {before after : List Command} (hx : x.name = name)
    (ha : ∀ y ∈ after, y.name ≠ name) (cs : List Command) :
    ((before ++ x :: after).foldl (fun cs x ↦ putChild x cs) cs).find? (·.name == name) =
      some x := by
  rw [List.foldl_append, List.foldl_cons]
  generalize before.foldl (fun cs x ↦ putChild x cs) cs = ds
  have hstart : (putChild x ds).find? (·.name == name) = some x := by
    rw [find?_putChild, if_pos hx]
  generalize putChild x ds = es at hstart
  induction after generalizing es with
  | nil => exact hstart
  | cons y after ih =>
    rw [List.foldl_cons]
    refine ih (fun z hz ↦ ha z (List.mem_cons_of_mem _ hz)) _ ?_
    rw [find?_putChild, if_neg (ha y List.mem_cons_self), hstart]

end putChild

end CommandCoverage
