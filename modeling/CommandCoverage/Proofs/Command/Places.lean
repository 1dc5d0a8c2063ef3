import CommandCoverage.Proofs.Command.Nodes

namespace CommandCoverage.Command

inductive At : Command → List Nat → List String → Command → Prop
  | here (c : Command) : At c [] [] c
  | down {c d x : Command} {i : Nat} {place : List Nat} {path : List String} :
      c.subcommands[i]? = some d → At d place path x → At c (i :: place) (d.name :: path) x

structure Placed where
  place : List Nat
  path : List String
  command : Command

/-- The same command seen from one level higher, under the name of the subcommand it is in. -/
def Placed.under (i : Nat) (name : String) (x : Placed) : Placed :=
  ⟨i :: x.place, name :: x.path, x.command⟩

mutual

def placed : Command → List Placed
  | ⟨n, d, fs, os, ps, cs, sf, sl, im, ws, t, tf⟩ =>
    ⟨[], [], ⟨n, d, fs, os, ps, cs, sf, sl, im, ws, t, tf⟩⟩ :: placedAll 0 cs

def placedAll (i : Nat) : List Command → List Placed
  | [] => []
  | c :: cs => (placed c).map (.under i c.name) ++ placedAll (i + 1) cs

end

variable {c d root x : Command} {cs : List Command} {place : List Nat} {path : List String}
  {y z : Placed} {i : Nat}

theorem At.length_eq (h : c.At place path x) : path.length = place.length := by
  induction h with
  | here => rfl
  | down _ _ ih => exact congrArg (· + 1) ih

theorem placed_eq (c : Command) : c.placed = ⟨[], [], c⟩ :: placedAll 0 c.subcommands := by
  cases c
  rw [placed]

theorem mem_placedAll : y ∈ placedAll i cs ↔
    ∃ (j : Nat) (d : Command) (z : Placed),
      cs[j]? = some d ∧ z ∈ d.placed ∧ y = z.under (i + j) d.name := by
  induction cs generalizing i with
  | nil => simp [placedAll]
  | cons c cs ih =>
    rw [placedAll, List.mem_append, List.mem_map, ih]
    constructor
    · rintro (⟨z, hz, rfl⟩ | ⟨j, d, z, hd, hz, rfl⟩)
      · exact ⟨0, c, z, rfl, hz, rfl⟩
      · exact ⟨j + 1, d, z, hd, hz, by rw [Nat.add_right_comm, Nat.add_assoc]⟩
    · rintro ⟨_ | j, d, z, hd, hz, rfl⟩
      · obtain rfl := Option.some.inj hd
        exact .inl ⟨z, hz, rfl⟩
      · exact .inr ⟨j, d, z, hd, hz, by rw [Nat.add_right_comm, Nat.add_assoc]⟩

mutual

theorem at_of_mem_placed : (c : Command) → (y : Placed) → y ∈ c.placed →
    c.At y.place y.path y.command
  | ⟨n, d, fs, os, ps, cs, sf, sl, im, ws, t, tf⟩, y, h => by
    rw [placed, List.mem_cons] at h
    rcases h with rfl | h
    · exact .here _
    · obtain ⟨j, e, z, he, hz, rfl⟩ := at_of_mem_placedAll cs _ _ h
      rw [Nat.zero_add]
      exact .down he hz

theorem at_of_mem_placedAll : (cs : List Command) → (i : Nat) → (y : Placed) →
    y ∈ placedAll i cs → ∃ (j : Nat) (d : Command) (z : Placed), cs[j]? = some d ∧
      d.At z.place z.path z.command ∧ y = z.under (i + j) d.name
  | [], _, _, h => by simp [placedAll] at h
  | c :: cs, i, y, h => by
    rw [placedAll, List.mem_append, List.mem_map] at h
    rcases h with ⟨z, hz, rfl⟩ | h
    · exact ⟨0, c, z, rfl, at_of_mem_placed c z hz, rfl⟩
    · obtain ⟨j, d, z, hd, hz, rfl⟩ := at_of_mem_placedAll cs _ _ h
      exact ⟨j + 1, d, z, hd, hz, by rw [Nat.add_right_comm, Nat.add_assoc]⟩

end

theorem At.mem_placed (h : c.At place path x) : ⟨place, path, x⟩ ∈ c.placed := by
  induction h with
  | here c =>
    rw [placed_eq]
    exact List.mem_cons_self
  | @down c d x i place path hd _ ih =>
    rw [placed_eq]
    refine List.mem_cons_of_mem _ (mem_placedAll.2 ⟨i, d, _, hd, ih, ?_⟩)
    rw [Nat.zero_add]
    rfl

theorem mem_placed_iff : y ∈ c.placed ↔ c.At y.place y.path y.command :=
  ⟨at_of_mem_placed c y, At.mem_placed⟩

mutual

theorem pairwise_placed : (c : Command) → c.placed.Pairwise (·.place < ·.place)
  | ⟨n, d, fs, os, ps, cs, sf, sl, im, ws, t, tf⟩ => by
    rw [placed, List.pairwise_cons]
    refine ⟨fun y hy ↦ ?_, pairwise_placedAll 0 cs⟩
    obtain ⟨j, e, z, -, -, rfl⟩ := mem_placedAll.1 hy
    exact List.nil_lt_cons _ _

theorem pairwise_placedAll (i : Nat) : (cs : List Command) →
    (placedAll i cs).Pairwise (·.place < ·.place)
  | [] => .nil
  | c :: cs => by
    rw [placedAll, List.pairwise_append, List.pairwise_map]
    refine ⟨(pairwise_placed c).imp fun h ↦ List.cons_lt_cons_self.2 h, pairwise_placedAll (i + 1) cs,
      fun y hy z hz ↦ ?_⟩
    obtain ⟨y, -, rfl⟩ := List.mem_map.1 hy
    obtain ⟨j, e, z, -, -, rfl⟩ := mem_placedAll.1 hz
    exact List.cons_lt_cons_iff.2 (.inl (by omega))

end

mutual

theorem nodesFrom_eq_placed : (c : Command) → (path : List String) →
    c.nodesFrom path = c.placed.map fun y ↦ (path ++ y.path, y.command)
  | ⟨n, d, fs, os, ps, cs, sf, sl, im, ws, t, tf⟩, path => by
    rw [nodesFrom, placed, List.map_cons, nodesFromAll_eq_placed cs path 0, List.append_nil]

theorem nodesFromAll_eq_placed : (cs : List Command) → (path : List String) → (i : Nat) →
    nodesFromAll path cs = (placedAll i cs).map fun y ↦ (path ++ y.path, y.command)
  | [], _, _ => rfl
  | c :: cs, path, i => by
    rw [nodesFromAll, placedAll, nodesFrom_eq_placed c, nodesFromAll_eq_placed cs path (i + 1),
      List.map_append, List.map_map]
    congr 1
    refine List.map_congr_left fun y _ ↦ ?_
    simp [Placed.under]

end

theorem path_ne_nil_of_mem {x : List String × Command} (h : x ∈ nodesFromAll [] cs) : x.1 ≠ [] := by
  rw [nodesFromAll_eq_placed cs [] 0, List.mem_map] at h
  obtain ⟨y, hy, rfl⟩ := h
  obtain ⟨j, d, z, -, -, rfl⟩ := mem_placedAll.1 hy
  exact List.cons_ne_nil _ _

theorem nodes_eq_placed (root : Command) :
    root.nodes = root.placed.map fun y ↦ (y.path, y.command) :=
  nodesFrom_eq_placed root []

end CommandCoverage.Command
