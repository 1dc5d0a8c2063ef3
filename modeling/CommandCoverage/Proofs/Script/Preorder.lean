import CommandCoverage.Script.Node
import Mathlib.Data.List.Basic

namespace CommandCoverage.Script

namespace Branching

variable {α : Type} [SizeOf α] [Branching α] {a b c n : α} {ns stack : List α}

theorem sizeOf_child_lt (h : c ∈ children n) : sizeOf c < sizeOf n :=
  Nat.lt_trans (List.sizeOf_lt_of_mem h) (sizeOf_children_lt n)

@[elab_as_elim]
theorem childInduction {motive : α → Prop}
    (node : ∀ n, (∀ c ∈ children n, motive c) → motive n) (n : α) : motive n :=
  node n fun c h ↦
    have := sizeOf_child_lt h
    childInduction node c
termination_by sizeOf n

section walk

theorem walkFrom_nil : walkFrom ([] : List α) = [] := by rw [walkFrom]

theorem walkFrom_cons (n : α) (stack : List α) :
    walkFrom (n :: stack) = n :: walkFrom (children n ++ stack) := by
  rw [walkFrom, pushChildren_eq]

theorem walkFrom_append (ns stack : List α) :
    walkFrom (ns ++ stack) = walkFrom ns ++ walkFrom stack := by
  fun_induction walkFrom ns with
  | case1 => rfl
  | case2 n ns ih =>
    rw [pushChildren_eq, List.append_assoc] at ih
    rw [List.cons_append, walkFrom_cons, ih, List.cons_append, pushChildren_eq]

theorem walkFrom_eq_flatMap (ns : List α) : walkFrom ns = ns.flatMap walk := by
  induction ns with
  | nil => exact walkFrom_nil
  | cons n ns ih => rw [List.flatMap_cons, ← ih, walk, ← walkFrom_append, List.singleton_append]

theorem walk_eq (n : α) : walk n = n :: (children n).flatMap walk := by
  rw [walk, walkFrom_cons, List.append_nil, walkFrom_eq_flatMap]

theorem mem_walk : a ∈ walk n ↔ a = n ∨ ∃ c ∈ children n, a ∈ walk c := by
  rw [walk_eq, List.mem_cons, List.mem_flatMap]

theorem mem_walk_trans (ha : a ∈ walk b) (hb : b ∈ walk n) : a ∈ walk n := by
  induction n using childInduction with
  | node n ih =>
    rcases mem_walk.1 hb with rfl | ⟨c, hc, hb⟩
    · exact ha
    · exact mem_walk.2 (.inr ⟨c, hc, ih c hc hb⟩)

end walk

section places

/-- The recursive pre-order: a node, then what is in pre-order below each child in turn. -/
def preorder (n : α) : List α := n :: (children n).flatMap preorder
termination_by sizeOf n
decreasing_by exact sizeOf_child_lt ‹_›

theorem walk_eq_preorder (n : α) : walk n = preorder n := by
  induction n using childInduction with
  | node n ih =>
    rw [walk_eq, preorder, List.flatMap_congr ih]

def atPlace? (n : α) : List Nat → Option α
  | [] => some n
  | i :: p => (children n)[i]?.bind fun c ↦ atPlace? c p

def Contains (n a : α) : Prop := ∃ p, atPlace? n p = some a

/-- The visits of a walk: each place in the tree once, with the node there, in the order of places.
A place comes before those below it, and these before the places of later siblings. -/
structure Visits (n : α) (visits : List (List Nat × α)) : Prop where
  ordered : visits.Pairwise fun v w ↦ v.1 < w.1
  mem_iff : ∀ p a, (p, a) ∈ visits ↔ atPlace? n p = some a

structure VisitsFrom (k : Nat) (ns : List α) (visits : List (List Nat × α)) : Prop where
  ordered : visits.Pairwise fun v w ↦ v.1 < w.1
  mem_iff : ∀ p a, (p, a) ∈ visits ↔
    ∃ i q c, p = (k + i) :: q ∧ ns[i]? = some c ∧ atPlace? c q = some a

/-- The visits of a tree put before those of the trees beside it. -/
theorem VisitsFrom.cons {k : Nat} {own later : List (List Nat × α)} (hown : Visits c own)
    (hlater : VisitsFrom (k + 1) ns later) :
    VisitsFrom k (c :: ns) (own.map (fun v ↦ (k :: v.1, v.2)) ++ later) where
  ordered := by
    rw [List.pairwise_append, List.pairwise_map]
    refine ⟨?_, hlater.ordered, ?_⟩
    · exact hown.ordered.imp fun hlt ↦ List.cons_lt_cons_iff.2 (.inr ⟨rfl, hlt⟩)
    · intro v hv w hw
      obtain ⟨u, -, rfl⟩ := List.mem_map.1 hv
      obtain ⟨i, q, -, hp, -⟩ := (hlater.mem_iff w.1 w.2).1 hw
      rw [hp]
      exact List.cons_lt_cons_iff.2 (.inl (by omega))
  mem_iff := by
    intro p a
    rw [List.mem_append, hlater.mem_iff]
    constructor
    · intro h
      rcases h with h | ⟨i, q, d, rfl, hd, ha⟩
      · obtain ⟨v, hv, heq⟩ := List.mem_map.1 h
        obtain ⟨rfl, rfl⟩ := Prod.mk.inj heq
        exact ⟨0, v.1, c, rfl, rfl, (hown.mem_iff v.1 v.2).1 hv⟩
      · exact ⟨i + 1, q, d, by rw [Nat.add_right_comm, Nat.add_assoc], hd, ha⟩
    · intro h
      obtain ⟨i, q, d, rfl, hd, ha⟩ := h
      cases i with
      | zero =>
        obtain rfl := Option.some_inj.1 hd
        exact .inl (List.mem_map.2 ⟨(q, a), (hown.mem_iff q a).2 ha, rfl⟩)
      | succ i => exact .inr ⟨i, q, d, by rw [Nat.add_right_comm, Nat.add_assoc], hd, ha⟩

theorem VisitsFrom.visits {below : List (List Nat × α)} (h : VisitsFrom 0 (children n) below) :
    Visits n (([], n) :: below) where
  ordered := by
    refine List.pairwise_cons.2 ⟨?_, h.ordered⟩
    intro v hv
    obtain ⟨i, q, -, hp, -⟩ := (h.mem_iff v.1 v.2).1 hv
    rw [hp]
    exact List.nil_lt_cons _ _
  mem_iff := by
    intro p a
    rw [List.mem_cons, h.mem_iff]
    cases p with
    | nil => simp [atPlace?, eq_comm]
    | cons i p => simp [atPlace?, Option.bind_eq_some_iff]

theorem exists_visitsFrom (k : Nat)
    (h : ∀ c ∈ ns, ∃ visits, Visits c visits ∧ visits.map Prod.snd = walk c) :
    ∃ visits, VisitsFrom k ns visits ∧ visits.map Prod.snd = ns.flatMap walk := by
  induction ns generalizing k with
  | nil => exact ⟨[], ⟨.nil, by simp⟩, rfl⟩
  | cons c ns ih =>
    obtain ⟨own, hown, hwalk⟩ := h c List.mem_cons_self
    obtain ⟨later, hlater, hrest⟩ := ih (k + 1) fun d hd ↦ h d (List.mem_cons_of_mem _ hd)
    refine ⟨_, .cons hown hlater, ?_⟩
    rw [List.map_append, hrest, List.flatMap_cons, ← hwalk, List.map_map]
    rfl

theorem exists_visits (n : α) : ∃ visits, Visits n visits ∧ visits.map Prod.snd = walk n := by
  induction n using childInduction with
  | node n ih =>
    obtain ⟨below, hbelow, hwalk⟩ := exists_visitsFrom 0 ih
    refine ⟨_, hbelow.visits, ?_⟩
    rw [List.map_cons, hwalk, walk_eq]

theorem mem_walk_iff_contains : a ∈ walk n ↔ Contains n a := by
  obtain ⟨visits, hvisits, hwalk⟩ := exists_visits n
  rw [← hwalk, List.mem_map]
  constructor
  · intro h
    obtain ⟨v, hv, rfl⟩ := h
    exact ⟨v.1, (hvisits.mem_iff v.1 v.2).1 hv⟩
  · intro h
    obtain ⟨p, hp⟩ := h
    exact ⟨(p, a), (hvisits.mem_iff p a).2 hp, rfl⟩

end places

section search

variable {found enters : α → Bool}

/-- A search that enters every node with something to find in it finds what a walk yields first. -/
theorem searchFrom_eq_find? (h : ∀ n ∈ stack, ∀ b ∈ walk n, ∀ a ∈ walk b,
    found a = true → enters b = true) :
    searchFrom found enters stack = (walkFrom stack).find? found := by
  fun_induction searchFrom found enters stack with
  | case1 => rw [walkFrom_nil, List.find?_nil]
  | case2 n stack hfound => rw [walkFrom_cons, List.find?_cons_of_pos hfound]
  | case3 n stack hfound henters ih =>
    rw [walkFrom_cons, List.find?_cons_of_neg hfound, ← pushChildren_eq]
    apply ih
    intro c hc b hb
    rw [pushChildren_eq, List.mem_append] at hc
    rcases hc with hc | hc
    · exact h n List.mem_cons_self b (mem_walk.2 (.inr ⟨c, hc, hb⟩))
    · exact h c (List.mem_cons_of_mem _ hc) b hb
  | case4 n stack hfound henters ih =>
    -- All that a walk yields for the node is passed over: there is nothing to find in it.
    have hnone : (walk n).find? found = none := by
      rw [List.find?_eq_none]
      intro a ha hfa
      exact henters (h n List.mem_cons_self n (mem_walk.2 (.inl rfl)) a ha hfa)
    rw [walkFrom_eq_flatMap, List.flatMap_cons, List.find?_append, hnone, Option.none_or,
      ← walkFrom_eq_flatMap]
    apply ih
    intro c hc
    exact h c (List.mem_cons_of_mem _ hc)

end search

end Branching

theorem Node.walk_eq (n : Node) : n.walk = n :: n.children.flatMap walk := Branching.walk_eq n

end CommandCoverage.Script
