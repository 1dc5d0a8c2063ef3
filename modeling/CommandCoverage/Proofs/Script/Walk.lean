import CommandCoverage.Discovery.Spread
import CommandCoverage.Proofs.Script.Preorder
import Mathlib.Data.Option.Basic

namespace CommandCoverage

namespace Script.Node

variable {a b n : Node} {ns : List Node}

theorem mem_walk : a ∈ n.walk ↔ a = n ∨ ∃ c ∈ n.children, a ∈ c.walk := Branching.mem_walk

theorem mem_walk_self (n : Node) : n ∈ n.walk := mem_walk.2 (.inl rfl)

theorem mem_walk_of_child (h : a ∈ n.children) : a ∈ n.walk :=
  mem_walk.2 (.inr ⟨a, h, a.mem_walk_self⟩)

theorem mem_walk_trans (ha : a ∈ b.walk) (hb : b ∈ n.walk) : a ∈ n.walk :=
  Branching.mem_walk_trans ha hb

mutual

theorem unwrap_mem_walk : (n : Node) → n.unwrap ∈ n.walk
  | ⟨k, r, l, a, b, t, cs⟩ => by
    rw [unwrap]
    split
    · rcases unwrapFirst_mem ⟨k, r, l, a, b, t, cs⟩ cs with h | ⟨c, hc, h⟩
      · exact mem_walk.2 (.inl h)
      · exact mem_walk.2 (.inr ⟨c, hc, h⟩)
    · exact mem_walk_self _

theorem unwrapFirst_mem (outer : Node) : (ns : List Node) →
    unwrapFirst outer ns = outer ∨ ∃ n ∈ ns, unwrapFirst outer ns ∈ n.walk
  | [] => .inl rfl
  | n :: ns => by
    rw [unwrapFirst]
    split
    · exact (unwrapFirst_mem outer ns).imp_right fun ⟨c, hc, h⟩ ↦ ⟨c, List.mem_cons_of_mem _ hc, h⟩
    · exact .inr ⟨n, List.mem_cons_self, n.unwrap_mem_walk⟩

end

theorem mem_walk_of_part {r : Role} (h : n.part r = some a) : a ∈ n.walk :=
  mem_walk_of_child (List.mem_of_find?_eq_some h)

theorem mem_walk_of_returned (h : n.returned = some a) : a ∈ n.walk := by
  obtain ⟨body, hb, h⟩ := Option.bind_eq_some_iff.1 h
  have hbody := mem_walk_of_part hb
  split at h
  · exact Option.some_inj.1 h ▸ hbody
  · split at h
    · rename_i r hr
      have hmem : r ∈ body.children.filter (·.kind == .returnStatement) := hr ▸ List.mem_cons_self
      refine mem_walk_trans (mem_walk_of_child ?_)
        (mem_walk_trans (mem_walk_of_child (List.mem_filter.1 hmem).1) hbody)
      exact List.mem_of_head? h
    · cases h

theorem mem_walk_of_member {m : Member} (h : m ∈ n.members) : m.node ∈ n.walk := by
  obtain ⟨c, hc, hm⟩ := List.mem_filterMap.1 h
  refine mem_walk_trans ?_ (mem_walk_of_child hc)
  unfold member? at hm
  split at hm
  · obtain ⟨v, hv, rfl⟩ := Option.map_eq_some_iff.1 hm
    exact mem_walk_of_part hv
  · obtain rfl := Option.some_inj.1 hm
    exact mem_walk_self c
  · obtain rfl := Option.some_inj.1 hm
    cases hh : c.children.head? with
    | none => exact mem_walk_self c
    | some v => exact mem_walk_of_child (List.mem_of_head? hh)
  · obtain rfl := Option.some_inj.1 hm
    exact mem_walk_self c
  · cases hm

theorem mem_walk_of_get? {name : String} (h : n.get? name = some a) : a ∈ n.walk := by
  obtain ⟨m, hm, rfl⟩ := Option.map_eq_some_iff.1 h
  exact mem_walk_of_member (List.mem_filter.1 (List.mem_of_getLast? hm)).1

theorem mem_walk_of_arguments (h : a ∈ n.arguments) : a ∈ n.walk := by
  unfold arguments at h
  cases hp : n.part .arguments with
  | none => simp [hp] at h
  | some args =>
    simp only [hp, Option.map_some, Option.getD_some, parts, List.mem_filter] at h
    exact mem_walk_trans (mem_walk_of_child h.1) (mem_walk_of_part hp)

end Script.Node

open Script Node

variable {m : Module} {n obj v : Node}

theorem Source.mem_walk_of_objectArgument (h : Source.objectArgument n = some obj) :
    obj ∈ n.walk := by
  obtain ⟨harg, -⟩ := Option.filter_eq_some_iff.1 h
  obtain ⟨a, ha, rfl⟩ := Option.map_eq_some_iff.1 harg
  exact mem_walk_trans a.unwrap_mem_walk (mem_walk_of_arguments (List.mem_of_head? ha))

theorem Source.mem_walk_of_awaited (h : Source.awaited n = some obj) : obj ∈ n.walk := by
  obtain ⟨_, hcallee, h⟩ := Option.bind_eq_some_iff.1 h
  obtain ⟨f, hf, rfl⟩ := Option.map_eq_some_iff.1 hcallee
  obtain ⟨-, -, h⟩ := Option.bind_eq_some_iff.1 h
  obtain ⟨property, -, h⟩ := Option.bind_eq_some_iff.1 h
  obtain ⟨-, -, ho⟩ := Option.bind_eq_some_iff.1 h
  exact mem_walk_trans (mem_walk_of_part ho)
    (mem_walk_trans f.unwrap_mem_walk (mem_walk_of_part hf))

theorem Source.mem_walk_of_ofNode {fuel : Nat} (h : ofNode m fuel n = .inline obj) :
    obj ∈ n.walk := by
  induction fuel generalizing n with
  | zero => simp [ofNode] at h
  | succ fuel ih =>
    refine mem_walk_trans ?_ n.unwrap_mem_walk
    rw [ofNode] at h
    generalize n.unwrap = n at h ⊢
    dsimp only at h
    split at h
    case h_1 =>
      cases h
      exact mem_walk_self _
    case h_2 | h_3 | h_4 => split at h <;> cases h
    case h_5 | h_6 | h_7 =>
      split at h
      · exact mem_walk_trans (ih h) (mem_walk_of_returned ‹_›)
      · cases h
    case h_8 =>
      split at h
      · split at h <;> cases h
      · split at h
        · rename_i target ht
          split at h
          · cases h
          · exact mem_walk_trans (ih h) (mem_walk_of_awaited ht)
        · split at h
          · cases h
            exact mem_walk_of_objectArgument ‹_›
          · cases h
    case h_9 => cases h

theorem mem_walk_of_classify (h : m.classify (some v) = .inline obj) : obj ∈ v.walk :=
  Source.mem_walk_of_ofNode h

end CommandCoverage
