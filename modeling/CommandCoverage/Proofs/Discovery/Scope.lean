import CommandCoverage.Discovery.Build
import CommandCoverage.Proofs.Discovery.Following
import CommandCoverage.Proofs.Script.Walk

namespace CommandCoverage

open Script Node Analysis

def Script.Module.spans (m : Module) : Set Node := {n | ∃ v ∈ m.held, n ∈ v.walk}

structure Scope where
  module : Module
  roots : List Node

inductive Scope.Holds (t : Table Module) (s : Scope) (m : Module) (n : Node) : Prop
  | held (hm : m ∈ around t s.module) (hn : n ∈ m.spans)
  | below (hm : m = s.module) {r : Node} (hr : r ∈ s.roots) (hn : n ∈ r.walk)

structure Scope.Inside (t : Table Module) (s' s : Scope) : Prop where
  module : s'.module ∈ around t s.module
  roots : ∀ r ∈ s'.roots, s.Holds t s'.module r

def Scope.met (t : Table Module) (s : Scope) : Set Identity :=
  {i | ∃ m n, s.Holds t m n ∧ (⟨m.path, n.start⟩ : Identity) = i}

variable {w : Workspace} {t : Table Module} {s s' : Scope} {m : Module} {n v obj : Node}
  {l : Located} {i : Identity} {cut : List Identity} {σ τ υ : Session}

theorem finite_spans (m : Module) : m.spans.Finite :=
  (m.finite_held.biUnion fun v _ ↦ v.walk.finite_toSet).subset fun _ ⟨_, hv, hn⟩ ↦
    Set.mem_biUnion hv hn

theorem Scope.finite_met (t : Table Module) (s : Scope) : (s.met t).Finite := by
  have hheld := (finite_around t s.module).biUnion fun m _ ↦
    (finite_spans m).image fun n ↦ (⟨m.path, n.start⟩ : Identity)
  have hbelow := (s.roots.flatMap walk).finite_toSet.image fun n ↦
    (⟨s.module.path, n.start⟩ : Identity)
  refine (hheld.union hbelow).subset ?_
  rintro i ⟨m, n, h, rfl⟩
  cases h with
  | held hm hn => exact .inl (Set.mem_biUnion hm ⟨n, hn, rfl⟩)
  | below hm hr hn => exact .inr ⟨n, List.mem_flatMap.2 ⟨_, hr, hn⟩, by rw [hm]⟩

namespace Scope

theorem Holds.walk (h : s.Holds t m n) (ha : obj ∈ n.walk) : s.Holds t m obj := by
  cases h with
  | held hm hn =>
    obtain ⟨v, hv, hn⟩ := hn
    exact .held hm ⟨v, hv, mem_walk_trans ha hn⟩
  | below hm hr hn => exact .below hm hr (mem_walk_trans ha hn)

theorem Inside.holds (h : s'.Inside t s) (hn : s'.Holds t m n) : s.Holds t m n := by
  cases hn with
  | held hm hn => exact .held (around_subset h.module hm) hn
  | below hm hr hn => exact hm ▸ (h.roots _ hr).walk hn

theorem Inside.met_subset (h : s'.Inside t s) : s'.met t ⊆ s.met t :=
  fun _ ⟨m, n, hn, hi⟩ ↦ ⟨m, n, h.holds hn, hi⟩

noncomputable def uncut (t : Table Module) (cut : List Identity) (s : Scope) : Nat :=
  {i | i ∈ s.met t ∧ i ∉ cut}.ncard

theorem Inside.uncut_le (h : s'.Inside t s) : s'.uncut t cut ≤ s.uncut t cut :=
  Set.ncard_le_ncard (fun _ ⟨hi, hc⟩ ↦ ⟨h.met_subset hi, hc⟩)
    ((s.finite_met t).subset fun _ hi ↦ hi.1)

theorem Inside.uncut_lt (h : s'.Inside t s) (hi : i ∈ s.met t) (hc : i ∉ cut) :
    s'.uncut t (i :: cut) < s.uncut t cut := by
  refine Set.ncard_lt_ncard ⟨?_, fun hs ↦ ?_⟩ ((s.finite_met t).subset fun _ hi ↦ hi.1)
  · rintro j ⟨hj, hn⟩
    exact ⟨h.met_subset hj, fun hm ↦ hn (List.mem_cons_of_mem _ hm)⟩
  · exact (hs ⟨hi, hc⟩).2 List.mem_cons_self

/-- What is still to be done weighs less: there are fewer places to read, or else fewer identities to
meet that are not cut, or else less of the same. -/
def Lighter (w : Workspace) (cut' : List Identity) (s' : Scope) (rank' : Nat) (τ : Session)
    (cut : List Identity) (s : Scope) (rank : Nat) (σ : Session) : Prop :=
  Prod.Lex (· < ·) (Prod.Lex (· < ·) (· < ·)) (unread w τ, s'.uncut τ.modules cut', rank')
    (unread w σ, s.uncut σ.modules cut, rank)

variable {rank rank' : Nat}

theorem lighter_of_rank (h : Later w σ τ) (hs : s'.Inside τ.modules s) (hr : rank' < rank) :
    Lighter w cut s' rank' τ cut s rank σ := by
  refine h.lex fun hu ↦ ?_
  rw [hu] at hs ⊢
  rcases hs.uncut_le.lt_or_eq with hlt | heq
  · exact .left _ _ hlt
  · exact heq ▸ .right _ hr

theorem lighter_of_cut (h : Later w σ τ) (hs : s'.Inside τ.modules s) (hi : i ∈ s.met τ.modules)
    (hc : i ∉ cut) : Lighter w (i :: cut) s' rank' τ cut s rank σ := by
  refine h.lex fun hu ↦ ?_
  rw [hu] at hs hi ⊢
  exact .left _ _ (hs.uncut_lt hi hc)

end Scope

def Located.scope (l : Located) : Scope := ⟨l.owner, [l.object]⟩

def Scope.ofMembers (m : Module) (members : List Member) : Scope := ⟨m, members.map (·.node)⟩

namespace Scope

theorem Inside.trans {a b c : Scope} (h : a.Inside t b) (h' : b.Inside t c) : a.Inside t c :=
  ⟨around_subset h'.module h.module, fun r hr ↦ h'.holds (h.roots r hr)⟩

theorem inside_of_subset {a b : List Node} (h : a ⊆ b) : (Scope.mk m a).Inside t ⟨m, b⟩ :=
  ⟨.inr rfl, fun r hr ↦ .below rfl (h hr) r.mem_walk_self⟩

theorem inside_of_held {k : String} {roots : List Node} (h : t.get? k = some m)
    (hr : ∀ v ∈ roots, v ∈ m.held) : (Scope.mk m roots).Inside t s :=
  ⟨.inl ⟨k, h⟩, fun v hv ↦ .held (.inl ⟨k, h⟩) ⟨v, hr v hv, v.mem_walk_self⟩⟩

theorem Inside.identity_mem (h : l.scope.Inside t s) : l.identity ∈ s.met t :=
  ⟨l.owner, l.object, h.roots _ List.mem_cons_self, rfl⟩

theorem inside_members (m : Module) (obj : Node) :
    (ofMembers m obj.members).Inside t ⟨m, [obj]⟩ := by
  refine ⟨.inr rfl, fun r hr ↦ ?_⟩
  obtain ⟨member, hm, rfl⟩ := List.mem_map.1 hr
  exact .below rfl List.mem_cons_self (mem_walk_of_member hm)

theorem inside_tail (m : Module) (member : Member) (members : List Member) :
    (ofMembers m members).Inside t (ofMembers m (member :: members)) :=
  inside_of_subset (List.subset_cons_self ..)

theorem inside_head (m : Module) (member : Member) (members : List Member) :
    (Scope.mk m [member.node]).Inside t (ofMembers m (member :: members)) :=
  inside_of_subset (by simp)

end Scope

theorem Script.Module.mem_of_objectWithin {steps : Nat} {v : Option Node}
    (h : m.objectWithin steps v = some obj) : (∃ n ∈ v, obj ∈ n.walk) ∨ obj ∈ m.spans := by
  induction steps generalizing v with
  | zero => simp [objectWithin] at h
  | succ steps ih =>
    cases v with
    | none => simp [objectWithin] at h
    | some n =>
      rw [objectWithin] at h
      have hn := n.unwrap_mem_walk
      split at h
      case h_1 =>
        obtain rfl := Option.some_inj.1 h
        exact .inl ⟨n, rfl, hn⟩
      case h_2 | h_3 =>
        rcases ih h with ⟨b, hb, ho⟩ | ho
        · exact .inr ⟨b, .inl ⟨_, hb⟩, ho⟩
        · exact .inr ho
      case h_4 | h_5 | h_6 =>
        rcases ih h with ⟨b, hb, ho⟩ | ho
        · exact .inl ⟨n, rfl, mem_walk_trans ho (mem_walk_trans (mem_walk_of_returned hb) hn)⟩
        · exact .inr ho
      case h_7 => cases h

theorem Scope.inside_object {v : Option Node} (h : m.object v = some obj) :
    (Located.mk obj m).scope.Inside t ⟨m, v.toList⟩ := by
  refine ⟨.inr rfl, fun r hr ↦ ?_⟩
  obtain rfl := List.mem_singleton.1 hr
  rcases m.mem_of_objectWithin h with ⟨n, hn, ho⟩ | ho
  · exact .below rfl (Option.mem_toList.2 hn) ho
  · exact .held (.inr rfl) ho

theorem Follows.inside_or {localOnly : Bool} {passed : List Passed} {q : Query}
    (h : Follows w localOnly passed q σ (.ok l) τ) : l.owner ∈ around τ.modules q.module ∧
      (q = .source (.inline l.object) l.owner ∨ l.object ∈ l.owner.spans) := by
  generalize hr : (Except.ok l : Except Unresolved Located) = r at h
  induction h with
  | answer h =>
    cases h <;> cases hr
    exact ⟨.inr rfl, .inl rfl⟩
  | move hm _ ih =>
    obtain ⟨ho, hi⟩ := ih hr
    refine ⟨hm.module_eq ▸ ho, .inr (hi.elim (fun hq ↦ ?_) id)⟩
    cases hm with
    | ofValue hv =>
      obtain ⟨hs, rfl⟩ := Query.source.inj hq
      exact ⟨_, .inr ⟨_, hv⟩, mem_walk_of_classify hs⟩
    | _ => cases hq
  | binding hb _ _ ih =>
    obtain ⟨ho, hi⟩ := ih hr
    refine ⟨ho, .inr (hi.elim (fun hq ↦ ?_) id)⟩
    obtain ⟨hs, rfl⟩ := Query.source.inj hq
    exact ⟨_, .inl ⟨_, hb.value⟩, mem_walk_of_classify hs⟩
  | unloadable => cases hr
  | imported _ _ hl hf ih =>
    obtain ⟨ho, hi⟩ := ih hr
    exact ⟨around_subset (.inl ⟨_, hf.later.get? hl.get?⟩) ho, .inr (hi.resolve_left nofun)⟩
  | star _ ih =>
    obtain ⟨ho, hi⟩ := ih hr
    exact ⟨ho, .inr (hi.resolve_left nofun)⟩
  | nextStar _ _ _ ih =>
    obtain ⟨ho, hi⟩ := ih hr
    exact ⟨ho, .inr (hi.resolve_left nofun)⟩

theorem Follows.inside {v : Node}
    (h : Follows w false [] (.source (m.classify (some v)) m) σ (.ok l) τ) :
    l.scope.Inside τ.modules ⟨m, [v]⟩ := by
  obtain ⟨ho, hi⟩ := h.inside_or
  refine ⟨ho, fun x hx ↦ ?_⟩
  obtain rfl := List.mem_singleton.1 hx
  rcases hi with hq | hi
  · obtain ⟨hs, hm⟩ := Query.source.inj hq
    exact .below hm.symm List.mem_cons_self (mem_walk_of_classify hs)
  · exact .held ho hi

end CommandCoverage
