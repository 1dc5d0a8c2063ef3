import CommandCoverage.Discovery.Root
import CommandCoverage.Proofs.Command.Nodes
import CommandCoverage.Proofs.Discovery.Building

namespace CommandCoverage

open Script Analysis Command

namespace Command

variable {c d : Command}

theorem DistinctTree.congr (h : c.DistinctTree) (hs : d.subcommands = c.subcommands)
    (hf : d.flags = c.flags) (ho : d.options = c.options) : d.DistinctTree := by
  refine .of_subcommands ⟨?_, ?_⟩ fun x hx ↦ h.of_mem (hs ▸ hx)
  · rw [hs]
    exact h.here.subcommands
  · rw [args, hf, ho]
    exact h.here.args

theorem distinctTree_leaf (hs : c.subcommands = []) (hf : c.flags = []) (ho : c.options = []) :
    c.DistinctTree := by
  refine .of_subcommands ⟨?_, ?_⟩ fun x hx ↦ ?_
  · simp [hs]
  · simp [args, hf, ho]
  · simp [hs] at hx

theorem DistinctTree.warned (h : c.DistinctTree) (x : Warning) : (c.warned x).DistinctTree :=
  h.congr rfl rfl rfl

theorem DistinctTree.extended (h : c.DistinctTree) (as : List Arg) (ws : List Warning) :
    (c.extended as ws).DistinctTree := by
  have hall : (as.foldl Command.addArg c).DistinctTree := by
    induction as generalizing c with
    | nil => exact h
    | cons a as ih => exact ih (h.addArg a)
  exact hall.congr rfl rfl rfl

theorem DistinctTree.fromElsewhere (h : c.DistinctTree) (l : Located) (m : Module) :
    (Analysis.fromElsewhere l m c).DistinctTree := by
  rw [Analysis.fromElsewhere]
  split
  · exact h
  · exact h.congr rfl rfl rfl

end Command

variable {w : Workspace} {σ τ : Session} {above : List Identity} {c : Command} {j : Job}
  {entry : String}

def Job.StartsDistinct : Job → Prop
  | .task (.entries _ _ own) => own.DistinctTree
  | _ => True

theorem distinctTree_heading (name : String) (d : Located) : (heading name d).DistinctTree :=
  distinctTree_leaf rfl rfl rfl

theorem Builds.distinctTree (h : Builds w above j σ c τ) (hj : j.StartsDistinct) :
    c.DistinctTree := by
  have hargs (name : String) (d : Located) (as : List Arg) (ws : List Warning) :
      ((heading name d).extended as ws).DistinctTree := (distinctTree_heading name d).extended as ws
  induction h with
  | bare => exact hargs _ _ _ _
  | notStatic => exact (hargs _ _ _ _).warned _
  | literal _ _ _ _ ih => exact ih (hargs _ _ _ _)
  | nil => exact hj
  | unnamed _ _ _ ih => exact ih (DistinctTree.warned hj _)
  | named _ _ hreg _ ih ih' =>
    have hchild := ih trivial
    refine ih' ?_
    rw [register_run] at hreg
    split at hreg
    · obtain ⟨rfl, -⟩ := Prod.mk.inj hreg
      exact DistinctTree.addSubcommand hj (hchild.warned _)
    · obtain ⟨rfl, -⟩ := Prod.mk.inj hreg
      exact DistinctTree.addSubcommand hj hchild
  | unresolved => exact (distinctTree_leaf rfl rfl rfl).warned _
  | cyclic => exact (distinctTree_leaf rfl rfl rfl).warned _
  | resolved _ _ _ ih => exact (ih trivial).fromElsewhere _ _

theorem distinctTree_of_build (name : String) (d : Located) (σ : Session) :
    ((Unbounded.build w above (.definition name d)).outcome.run σ).1.DistinctTree := by
  obtain ⟨c, τ, hb⟩ := exists_builds w above (.definition name d) σ
  have heval : Unbounded.build w above (.definition name d) σ = some (c, τ) := hb.eval
  rw [Unbounded.outcome_run, heval]
  exact hb.distinctTree trivial

theorem discover_distinctTree (h : ((discover w entry).run σ).1 = .ok c) : c.DistinctTree := by
  rw [discover, run_bind, run_bind] at h
  split at h
  · cases h
  · rw [run_bind] at h
    split at h
    · cases h
    · split at h
      · cases h
      · rw [run_bind] at h
        obtain rfl := Except.ok.inj h
        exact (distinctTree_of_build _ _ _).fromElsewhere _ _

end CommandCoverage
