import CommandCoverage.Proofs.Script.Walk

namespace CommandCoverage.Script.Node

structure InOrder (tree : Node) : Prop where
  parent : ∀ n ∈ tree.walk, ∀ c ∈ n.children, n.start ≤ c.start
  siblings : ∀ n ∈ tree.walk, n.children.Pairwise fun a b ↦ ∀ x ∈ a.walk, x.start ≤ b.start
  lines : ∀ a ∈ tree.walk, ∀ b ∈ tree.walk, a.start ≤ b.start → a.line ≤ b.line

instance (tree : Node) : Decidable tree.InOrder :=
  decidable_of_iff
    ((∀ n ∈ tree.walk, ∀ c ∈ n.children, n.start ≤ c.start) ∧
      (∀ n ∈ tree.walk, n.children.Pairwise fun a b ↦ ∀ x ∈ a.walk, x.start ≤ b.start) ∧
      ∀ a ∈ tree.walk, ∀ b ∈ tree.walk, a.start ≤ b.start → a.line ≤ b.line)
    ⟨fun ⟨hp, hs, hl⟩ ↦ ⟨hp, hs, hl⟩, fun ⟨hp, hs, hl⟩ ↦ ⟨hp, hs, hl⟩⟩

variable {a c n tree : Node}

theorem InOrder.child (h : n.InOrder) (hc : c ∈ n.children) : c.InOrder := by
  have hsub : ∀ x ∈ c.walk, x ∈ n.walk := fun x hx ↦ mem_walk.2 (.inr ⟨c, hc, hx⟩)
  refine ⟨?_, ?_, ?_⟩
  · intro x hx
    exact h.parent x (hsub x hx)
  · intro x hx
    exact h.siblings x (hsub x hx)
  · intro x hx y hy
    exact h.lines x (hsub x hx) y (hsub y hy)

theorem InOrder.start_le (h : tree.InOrder) (ha : a ∈ tree.walk) : tree.start ≤ a.start := by
  induction tree using Branching.childInduction with
  | node tree ih =>
    rcases mem_walk.1 ha with rfl | ⟨c, hc, ha⟩
    · exact Nat.le_refl _
    · have hchild := ih c hc (h.child hc) ha
      have hparent := h.parent tree tree.mem_walk_self c hc
      omega

theorem InOrder.pairwise_start (h : tree.InOrder) :
    tree.walk.Pairwise fun a b ↦ a.start ≤ b.start := by
  induction tree using Branching.childInduction with
  | node tree ih =>
    rw [walk_eq, List.pairwise_cons]
    constructor
    · intro a ha
      exact h.start_le (walk_eq tree ▸ List.mem_cons_of_mem _ ha)
    · refine List.pairwise_flatMap.2 ⟨?_, ?_⟩
      · intro c hc
        exact ih c hc (h.child hc)
      · have hsiblings := h.siblings tree tree.mem_walk_self
        refine hsiblings.imp_of_mem ?_
        intro a b _ hb hbefore x hx y hy
        have hstart := (h.child hb).start_le hy
        have hx := hbefore x hx
        omega

theorem InOrder.pairwise_line (h : tree.InOrder) :
    tree.walk.Pairwise fun a b ↦ a.line ≤ b.line :=
  h.pairwise_start.imp_of_mem fun ha hb hab ↦ h.lines _ ha _ hb hab

end CommandCoverage.Script.Node
