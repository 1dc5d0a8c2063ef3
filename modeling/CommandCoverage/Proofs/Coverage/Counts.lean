import CommandCoverage.Coverage.Basic
import CommandCoverage.Proofs.Command.Lookup
import CommandCoverage.Proofs.Command.Places
import Mathlib.Data.Bool.Count

namespace CommandCoverage

open Command

theorem Record.addAll_eq (r : Record) (marks : List Bool) :
    r.addAll marks = ⟨r.total + marks.length, r.tested + marks.count true⟩ := by
  induction marks generalizing r with
  | nil => rfl
  | cons b marks ih =>
    have hadd : (r.add b).addAll marks =
        ⟨(r.add b).total + marks.length, (r.add b).tested + marks.count true⟩ := ih _
    rw [addAll, List.foldl_cons, ← addAll, hadd, Record.mk.injEq]
    cases b <;> simp [add] <;> omega

theorem Record.addAll_map {α : Type} (f : α → Bool) (xs : List α) :
    ({} : Record).addAll (xs.map f) = ⟨xs.length, xs.countP f⟩ := by
  have hcount : (xs.map f).count true = xs.countP f := by
    rw [List.count, List.countP_map]
    exact List.countP_congr fun x _ ↦ by simp
  rw [addAll_eq, hcount, List.length_map, Nat.zero_add, Nat.zero_add]

theorem Record.addAll_addAll (r : Record) (marks marks' : List Bool) :
    (r.addAll marks).addAll marks' = r.addAll (marks ++ marks') :=
  List.foldl_append.symm

def Category.marks (path : List String) (c : Command) : Category → List Bool
  | commands => if path.isEmpty then [c.tested] else []
  | subcommands => if path.isEmpty then [] else [c.tested]
  | flags => c.flags.map (·.tested)
  | options => c.options.map (·.tested)
  | overall => c.tested :: c.args.map (·.tested)

def ItemKind.category : ItemKind → Category
  | command => .commands
  | subcommand => .subcommands
  | flag => .flags
  | option => .options

def Untested.isIn (k : Category) (u : Untested) : Bool := k == .overall || u.kind.category == k

namespace Records

variable {c root : Command} {path : List String}

def ofTable (r : Records) : ArgTable → Record
  | .flags => r.flags
  | .options => r.options

theorem get_addCommand (r : Records) (path : List String) (c : Command) (k : Category) :
    (r.addCommand path c).get k = (r.get k).addAll (k.marks path c) := by
  cases k with
  | commands => cases path <;> rfl
  | subcommands => cases path <;> rfl
  | flags => cases path <;> rfl
  | options => cases path <;> rfl
  | overall =>
    simp only [get, overall, addCommand, Record.plus, Record.addAll_eq, Category.marks, args]
    cases path <;> cases c.tested <;> simp [Record.add] <;> omega

theorem get_ofTree (root : Command) (k : Category) : (ofTree root).get k =
    ({} : Record).addAll (root.nodes.flatMap fun x ↦ k.marks x.1 x.2) := by
  have hfold (r : Records) (nodes : List (List String × Command)) :
      (nodes.foldl (fun r x ↦ r.addCommand x.1 x.2) r).get k =
        (r.get k).addAll (nodes.flatMap fun x ↦ k.marks x.1 x.2) := by
    induction nodes generalizing r with
    | nil => rfl
    | cons x nodes ih =>
      rw [List.foldl_cons, ih, get_addCommand, Record.addAll_addAll, List.flatMap_cons]
  have hstart : ({} : Records).get k = {} := by cases k <;> rfl
  rw [ofTree, hfold, hstart]

theorem commands_ofTree (root : Command) :
    (ofTree root).commands = ⟨1, if root.tested then 1 else 0⟩ := by
  have hbelow : (nodesFromAll [] root.subcommands).flatMap
      (fun x ↦ Category.commands.marks x.1 x.2) = [] := by
    refine List.flatMap_eq_nil_iff.2 fun x hx ↦ ?_
    simp [Category.marks, path_ne_nil_of_mem hx]
  have hget := get_ofTree root .commands
  rw [nodes, nodesFrom_eq, List.flatMap_cons, hbelow] at hget
  refine hget.trans ?_
  cases h : root.tested <;> simp [Category.marks, h, Record.addAll, Record.add]

theorem subcommands_ofTree (root : Command) : (ofTree root).subcommands =
    ⟨(nodesFromAll [] root.subcommands).length,
      (nodesFromAll [] root.subcommands).countP (·.2.tested)⟩ := by
  have hbelow : (nodesFromAll [] root.subcommands).flatMap
      (fun x ↦ Category.subcommands.marks x.1 x.2) =
        (nodesFromAll [] root.subcommands).map (·.2.tested) := by
    rw [List.map_eq_flatMap]
    refine List.flatMap_congr fun x hx ↦ ?_
    simp [Category.marks, path_ne_nil_of_mem hx]
  have hget := get_ofTree root .subcommands
  rw [nodes, nodesFrom_eq, List.flatMap_cons, hbelow] at hget
  exact hget.trans (Record.addAll_map _ _)

theorem ofTable_ofTree (root : Command) (t : ArgTable) : (ofTree root).ofTable t =
    ⟨(root.nodes.flatMap (·.2.table t)).length,
      (root.nodes.flatMap (·.2.table t)).countP (·.tested)⟩ := by
  rw [← Record.addAll_map, List.map_flatMap]
  cases t with
  | flags => exact get_ofTree root .flags
  | options => exact get_ofTree root .options

end Records

namespace Untested

theorem countP_ofArgs (kind : ItemKind) (fullName : String) (path : List String) (as : List Arg)
    (k : Category) :
    ((as.filter (!·.tested)).map fun a ↦ Untested.mk kind fullName path (some a)).countP (isIn k) =
      if k = .overall ∨ kind.category = k then (as.map (·.tested)).count false else 0 := by
  have hmarks : (as.map (·.tested)).count false = (as.filter (!·.tested)).length := by
    rw [← List.countP_eq_length_filter, List.count, List.countP_map]
    exact List.countP_congr fun a _ ↦ by cases h : a.tested <;> simp [h]
  rw [hmarks, List.countP_map]
  split
  · rename_i h
    refine List.countP_eq_length.2 fun a _ ↦ ?_
    simpa [isIn] using h
  · rename_i h
    refine List.countP_eq_zero.2 fun a _ ↦ ?_
    simpa [isIn] using h

theorem countP_ofCommand (root : Command) (path : List String) (c : Command) (k : Category) :
    (ofCommand root path c).countP (isIn k) = (k.marks path c).count false := by
  rw [ofCommand, List.countP_append, List.countP_append, countP_ofArgs, countP_ofArgs]
  cases k <;> cases path <;> cases h : c.tested <;>
    simp [isIn, ItemKind.category, Category.marks, args, h, Nat.add_assoc, Nat.add_comm]

theorem tested_add_countP (root : Command) (k : Category) :
    ((Records.ofTree root).get k).tested + (ofTree root).countP (isIn k) =
      ((Records.ofTree root).get k).total := by
  have hitems : (ofTree root).countP (isIn k) =
      (root.nodes.flatMap fun x ↦ k.marks x.1 x.2).count false := by
    rw [ofTree, List.countP_flatMap, List.count_flatMap]
    exact congrArg List.sum (List.map_congr_left fun x _ ↦ countP_ofCommand root x.1 x.2 k)
  have hmarks := List.count_false_add_count_true (root.nodes.flatMap fun x ↦ k.marks x.1 x.2)
  rw [Records.get_ofTree, Record.addAll_eq, hitems]
  simp only
  omega

theorem tested_add_length (root : Command) :
    (Records.ofTree root).overall.tested + (ofTree root).length =
      (Records.ofTree root).overall.total := by
  have hall : (ofTree root).countP (isIn .overall) = (ofTree root).length := by
    rw [List.countP_eq_length]
    exact fun u _ ↦ rfl
  rw [← hall]
  exact tested_add_countP root .overall

end Untested

section listing

/-- Where an item of a command stands: the command itself, or an argument in one of its tables. -/
inductive Slot where
  | command
  | arg (t : ArgTable) (i : Nat)

inductive Slot.Before : Slot → Slot → Prop
  | command {t : ArgTable} {i : Nat} : Before .command (.arg t i)
  | table {i j : Nat} : Before (.arg .flags i) (.arg .options j)
  | index {t : ArgTable} {i j : Nat} : i < j → Before (.arg t i) (.arg t j)

structure Spot where
  place : List Nat
  slot : Slot

/-- Items stand in the order of their commands, those of one command in the order of their slots. -/
inductive Spot.Before : Spot → Spot → Prop
  | place {s s' : Spot} : s.place < s'.place → Before s s'
  | slot {place : List Nat} {l l' : Slot} : l.Before l' → Before ⟨place, l⟩ ⟨place, l'⟩

def Command.ArgTable.itemKind : ArgTable → ItemKind
  | flags => .flag
  | options => .option

inductive Command.UntestedAt (root : Command) : Spot → Untested → Prop
  | command {place : List Nat} {path : List String} {c : Command} :
      root.At place path c → c.tested = false →
      UntestedAt root ⟨place, .command⟩
        ⟨if place = [] then .command else .subcommand, root.fullName path, path, none⟩
  | arg {place : List Nat} {path : List String} {c : Command} {t : ArgTable} {i : Nat} {a : Arg} :
      root.At place path c → (c.table t)[i]? = some a → a.tested = false →
      UntestedAt root ⟨place, .arg t i⟩ ⟨t.itemKind, root.fullName path, path, some a⟩

namespace Command.Placed

variable {root : Command} {y : Placed} {s : Spot} {u : Untested}

def untestedIn (root : Command) (y : Placed) (t : ArgTable) : List (Spot × Untested) :=
  ((y.command.table t).zipIdx.filter (!·.1.tested)).map fun x ↦
    (⟨y.place, .arg t x.2⟩, ⟨t.itemKind, root.fullName y.path, y.path, some x.1⟩)

def untested (root : Command) (y : Placed) : List (Spot × Untested) :=
  (if y.command.tested then []
    else [(⟨y.place, .command⟩,
      ⟨if y.place = [] then .command else .subcommand, root.fullName y.path, y.path, none⟩)]) ++
    y.untestedIn root .flags ++ y.untestedIn root .options

theorem map_untestedIn (root : Command) (y : Placed) (t : ArgTable) :
    (y.untestedIn root t).map (·.2) = ((y.command.table t).filter (!·.tested)).map fun a ↦
      ⟨t.itemKind, root.fullName y.path, y.path, some a⟩ := by
  have hargs : ((y.command.table t).zipIdx.filter (!·.1.tested)).map (·.1) =
      (y.command.table t).filter (!·.tested) := by
    conv_rhs => rw [← List.zipIdx_map_fst 0 (y.command.table t), List.filter_map]
    rfl
  rw [untestedIn, List.map_map, ← hargs, List.map_map]
  rfl

theorem map_untested (h : root.At y.place y.path y.command) :
    (y.untested root).map (·.2) = Untested.ofCommand root y.path y.command := by
  have hroot : y.path.isEmpty = true ↔ y.place = [] := by
    rw [List.isEmpty_iff_length_eq_zero, h.length_eq, List.length_eq_zero_iff]
  have hown : (if y.command.tested then ([] : List (Spot × Untested))
      else [(⟨y.place, .command⟩,
        ⟨if y.place = [] then .command else .subcommand, root.fullName y.path, y.path, none⟩)]).map
      (·.2) = if y.command.tested then []
        else
          [⟨if y.path.isEmpty then .command else .subcommand, root.fullName y.path, y.path, none⟩] := by
    simp only [hroot]
    split <;> rfl
  rw [untested, List.map_append, List.map_append, map_untestedIn, map_untestedIn, hown]
  rfl

theorem mem_untestedIn {t : ArgTable} : (s, u) ∈ y.untestedIn root t ↔ ∃ i a,
    (y.command.table t)[i]? = some a ∧ a.tested = false ∧ s = ⟨y.place, .arg t i⟩ ∧
      u = ⟨t.itemKind, root.fullName y.path, y.path, some a⟩ := by
  simp only [untestedIn, List.mem_map, List.mem_filter, Prod.exists, List.mem_zipIdx_iff_getElem?,
    Bool.not_eq_true', Prod.mk.injEq]
  constructor
  · rintro ⟨a, i, ⟨ha, hu⟩, rfl, rfl⟩
    exact ⟨i, a, ha, hu, rfl, rfl⟩
  · rintro ⟨i, a, ha, hu, rfl, rfl⟩
    exact ⟨a, i, ⟨ha, hu⟩, rfl, rfl⟩

theorem pairwise_untestedIn (root : Command) (y : Placed) (t : ArgTable) :
    (y.untestedIn root t).Pairwise (·.1.Before ·.1) := by
  have hindex : (y.command.table t).zipIdx.Pairwise (·.2 < ·.2) := by
    rw [← List.pairwise_map (f := Prod.snd) (R := (· < ·)), List.zipIdx_map_snd]
    exact List.pairwise_lt_range'
  rw [untestedIn, List.pairwise_map]
  exact (hindex.sublist List.filter_sublist).imp fun h ↦ .slot (.index h)

theorem mem_untested : (s, u) ∈ y.untested root ↔
    y.command.tested = false ∧ s = ⟨y.place, .command⟩ ∧
      u = ⟨if y.place = [] then .command else .subcommand, root.fullName y.path, y.path, none⟩ ∨
    ∃ t, (s, u) ∈ y.untestedIn root t := by
  have htables : (∃ t, (s, u) ∈ y.untestedIn root t) ↔
      (s, u) ∈ y.untestedIn root .flags ∨ (s, u) ∈ y.untestedIn root .options :=
    ⟨fun ⟨t, h⟩ ↦ by cases t <;> simp [h], by rintro (h | h) <;> exact ⟨_, h⟩⟩
  rw [untested, List.mem_append, List.mem_append, htables, or_assoc]
  cases y.command.tested <;> simp

theorem pairwise_untested (root : Command) (y : Placed) :
    (y.untested root).Pairwise (·.1.Before ·.1) := by
  simp only [untested, List.pairwise_append, pairwise_untestedIn, true_and]
  refine ⟨⟨?_, ?_⟩, ?_⟩
  · split <;> simp
  · rintro ⟨s, u⟩ hs ⟨s', u'⟩ hs'
    obtain ⟨i, a, -, -, rfl, -⟩ := mem_untestedIn.1 hs'
    split at hs
    · cases hs
    · obtain ⟨rfl, -⟩ := Prod.mk.inj (List.mem_singleton.1 hs)
      exact .slot .command
  · rintro ⟨s, u⟩ hs ⟨s', u'⟩ hs'
    obtain ⟨j, b, -, -, rfl, -⟩ := mem_untestedIn.1 hs'
    rcases List.mem_append.1 hs with hs | hs
    · split at hs
      · cases hs
      · obtain ⟨rfl, -⟩ := Prod.mk.inj (List.mem_singleton.1 hs)
        exact .slot .command
    · obtain ⟨i, a, -, -, rfl, -⟩ := mem_untestedIn.1 hs
      exact .slot .table

theorem place_eq (h : (s, u) ∈ y.untested root) : s.place = y.place := by
  rcases mem_untested.1 h with ⟨-, rfl, -⟩ | ⟨t, h⟩
  · rfl
  · obtain ⟨i, a, -, -, rfl, -⟩ := mem_untestedIn.1 h
    rfl

end Command.Placed

namespace Untested

/-- Some items are what no test uses of a tree, each of them once, in the order in which they stand
in the tree. -/
structure Lists (root : Command) (us : List Untested) (spots : List Spot) : Prop where
  ordered : spots.Pairwise Spot.Before
  length_eq : spots.length = us.length
  mem_iff : ∀ s u, (s, u) ∈ spots.zip us ↔ root.UntestedAt s u

def placed (root : Command) : List (Spot × Untested) := root.placed.flatMap (·.untested root)

variable {root : Command} {s : Spot} {u : Untested}

theorem map_placed (root : Command) : (placed root).map (·.2) = ofTree root := by
  rw [placed, ofTree, nodes_eq_placed, List.map_flatMap, List.flatMap_map]
  exact List.flatMap_congr fun y hy ↦ Placed.map_untested (mem_placed_iff.1 hy)

theorem mem_placed : (s, u) ∈ placed root ↔ root.UntestedAt s u := by
  rw [placed, List.mem_flatMap]
  constructor
  · rintro ⟨y, hy, hs⟩
    have hat := mem_placed_iff.1 hy
    rcases Placed.mem_untested.1 hs with ⟨hu, rfl, rfl⟩ | ⟨t, hs⟩
    · exact .command hat hu
    · obtain ⟨i, a, ha, hu, rfl, rfl⟩ := Placed.mem_untestedIn.1 hs
      exact .arg hat ha hu
  · intro h
    cases h with
    | command hat hu =>
      exact ⟨_, hat.mem_placed, Placed.mem_untested.2 (.inl ⟨hu, rfl, rfl⟩)⟩
    | arg hat ha hu =>
      exact ⟨_, hat.mem_placed, Placed.mem_untested.2
        (.inr ⟨_, Placed.mem_untestedIn.2 ⟨_, _, ha, hu, rfl, rfl⟩⟩)⟩

theorem pairwise_placed (root : Command) : (placed root).Pairwise (·.1.Before ·.1) := by
  rw [placed, List.pairwise_flatMap]
  refine ⟨fun y _ ↦ Placed.pairwise_untested root y, (Command.pairwise_placed root).imp ?_⟩
  rintro y z hyz ⟨s, u⟩ hs ⟨s', u'⟩ hs'
  refine .place ?_
  rwa [Placed.place_eq hs, Placed.place_eq hs']

theorem exists_lists (root : Command) : ∃ spots, Lists root (ofTree root) spots := by
  have hzip : placed root = ((placed root).map (·.1)).zip (ofTree root) :=
    List.zip_of_prod rfl (map_placed root)
  refine ⟨(placed root).map (·.1), List.pairwise_map.2 (pairwise_placed root), ?_, fun s u ↦ ?_⟩
  · rw [← map_placed, List.length_map, List.length_map]
  · rw [← hzip]
    exact mem_placed

end Untested

end listing

namespace Records

structure AgreesWith (r : Records) (root : Command) (us : List Untested) : Prop where
  commands : r.commands.total = 1
  subcommands : r.subcommands.total = root.nodes.length - 1
  tables : ∀ t, (r.ofTable t).total = (root.nodes.map fun x ↦ (x.2.table t).length).sum
  overall : r.overall =
    ⟨r.commands.total + r.subcommands.total + r.flags.total + r.options.total,
      r.commands.tested + r.subcommands.tested + r.flags.tested + r.options.tested⟩
  missing : ∀ k, (r.get k).total - (r.get k).tested = (us.filter (·.isIn k)).length
  missingOverall : r.overall.total - r.overall.tested = us.length
  bounded : ∀ k, (r.get k).tested ≤ (r.get k).total
  full_iff : r.overall.tested = r.overall.total ↔ us = []
  listed : ∃ spots, Untested.Lists root us spots

/-- The counts of a tree, with any marks, agree with the list of its untested items. -/
theorem ofTree_agreesWith (root : Command) :
    (ofTree root).AgreesWith root (Untested.ofTree root) := by
  have hcategory (k : Category) := Untested.tested_add_countP root k
  have hall := Untested.tested_add_length root
  refine ⟨?_, ?_, fun t ↦ ?_, ?_, fun k ↦ ?_, ?_, fun k ↦ ?_, ?_, Untested.exists_lists root⟩
  · rw [commands_ofTree]
  · rw [subcommands_ofTree, nodes, nodesFrom_eq, List.length_cons, Nat.add_sub_cancel]
  · rw [ofTable_ofTree, List.length_flatMap]
  · simp only [overall, Record.plus, Nat.add_assoc]
  · rw [← List.countP_eq_length_filter, ← hcategory k, Nat.add_sub_cancel_left]
  · omega
  · rw [← hcategory k]
    exact Nat.le_add_right ..
  · rw [← List.length_eq_zero_iff]
    omega

end Records

end CommandCoverage
