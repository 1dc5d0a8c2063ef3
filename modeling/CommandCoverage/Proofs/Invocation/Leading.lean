import CommandCoverage.Invocation.Tokens
import CommandCoverage.Proofs.Command.Lookup
import Mathlib.Data.List.TakeWhile

namespace CommandCoverage

open Command

namespace Invocation

def leadingRun (tokens : List String) : List String := tokens.takeWhile (!startsWithDash ·)

structure LeadsFurthest (root : Command) (run : List String) (k : Nat) (c : Command) : Prop where
  le : k ≤ run.length
  leads : root.resolve (run.take k) = some c
  furthest : ∀ j, k < j → j ≤ run.length → root.resolve (run.take j) = none

structure SplitsAt (root : Command) (run : List String) (k : Nat) (c : Command) (l : Leading) :
    Prop where
  consumed : l.consumed = run.length
  whole : l.path ++ l.positionals = run
  ended : k = run.length ∨ c.positionals ≠ [] ∨ c.subcommands = [] →
    l.path = run.take k ∧ root.resolve l.path = some c ∧ l.positionals = run.drop k
  lost : ¬(k = run.length ∨ c.positionals ≠ [] ∨ c.subcommands = []) →
    l.path = run ∧ root.resolve l.path = none ∧ l.positionals = []

/-- Leading tokens with more of them after the path and after the positionals. -/
def Leading.append (l : Leading) (path positionals : List String) : Leading where
  path := l.path ++ path
  positionals := l.positionals ++ positionals
  consumed := l.consumed + (path.length + positionals.length)

variable {c d root : Command} {node : Option Command} {l : Leading} {t : String}
  {run ts : List String} {k : Nat}

theorem leadingRun_cons : leadingRun (t :: ts) =
    if startsWithDash t then [] else t :: leadingRun ts := by
  rw [leadingRun, List.takeWhile_cons]
  cases startsWithDash t <;> rfl

theorem startsWithDash_of_mem_leadingRun (h : t ∈ leadingRun ts) : startsWithDash t = false := by
  simpa using List.mem_takeWhile_imp h

theorem leadingRun_eq_self (h : ∀ t ∈ ts, startsWithDash t = false) : leadingRun ts = ts :=
  List.takeWhile_eq_self_iff.2 fun t ht ↦ by simp [h t ht]

theorem endsPath_iff : endsPath c = true ↔ c.positionals ≠ [] ∨ c.subcommands = [] := by
  simp [endsPath]

theorem Leading.append_append (a b a' b' : List String) :
    (l.append a b).append a' b' = l.append (a ++ a') (b ++ b') := by
  simp [Leading.append, Nat.add_assoc, Nat.add_left_comm]

theorem Leading.append_nil : l.append [] [] = l := by
  simp [Leading.append]

section steps

theorem splitFrom_dash (h : startsWithDash t = true) : splitFrom node l (t :: ts) = l := by
  rw [splitFrom, if_pos h]

variable (hdash : startsWithDash t = false)

include hdash

theorem splitFrom_child (hl : l.positionals = []) (hd : c.child t = some d) :
    splitFrom (some c) l (t :: ts) = splitFrom (some d) (l.append [t] []) ts := by
  rw [splitFrom.eq_def]
  simp [hdash, hl, hd, Leading.append]

theorem splitFrom_positional (h : l.positionals ≠ []) :
    splitFrom node l (t :: ts) = splitFrom node (l.append [] [t]) ts := by
  rw [splitFrom.eq_def]
  simp [hdash, h, Leading.append]

theorem splitFrom_ended (hd : c.child t = none) (he : endsPath c = true) :
    splitFrom (some c) l (t :: ts) = splitFrom (some c) (l.append [] [t]) ts := by
  rw [splitFrom.eq_def]
  simp [hdash, hd, he, Leading.append]

theorem splitFrom_strayed (hl : l.positionals = []) (hd : c.child t = none)
    (he : endsPath c = false) :
    splitFrom (some c) l (t :: ts) = splitFrom none (l.append [t] []) ts := by
  rw [splitFrom.eq_def]
  simp [hdash, hl, hd, he, Leading.append]

theorem splitFrom_astray (hl : l.positionals = []) :
    splitFrom none l (t :: ts) = splitFrom none (l.append [t] []) ts := by
  rw [splitFrom.eq_def]
  simp [hdash, hl, Leading.append]

end steps

theorem splitFrom_positionals (h : l.positionals ≠ []) :
    splitFrom node l ts = l.append [] (leadingRun ts) := by
  induction ts generalizing l with
  | nil => exact Leading.append_nil.symm
  | cons t ts ih =>
    rw [leadingRun_cons]
    cases hdash : startsWithDash t with
    | true => rw [splitFrom_dash hdash, if_pos rfl, Leading.append_nil]
    | false =>
      rw [splitFrom_positional hdash h, ih (by simp [Leading.append]), Leading.append_append]
      rfl

theorem splitFrom_none (hl : l.positionals = []) :
    splitFrom none l ts = l.append (leadingRun ts) [] := by
  induction ts generalizing l with
  | nil => exact Leading.append_nil.symm
  | cons t ts ih =>
    rw [leadingRun_cons]
    cases hdash : startsWithDash t with
    | true => rw [splitFrom_dash hdash, if_pos rfl, Leading.append_nil]
    | false =>
      rw [splitFrom_astray hdash hl, ih (by simp [Leading.append, hl]), Leading.append_append]
      rfl

theorem leadsFurthest_zero (h : ∀ t ∈ run.head?, c.child t = none) : LeadsFurthest c run 0 c := by
  refine ⟨Nat.zero_le _, by simp [resolve], ?_⟩
  intro j hj hle
  obtain ⟨j, rfl⟩ := Nat.exists_eq_add_one.2 hj
  cases run with
  | nil => simp at hle
  | cons t run => simp [resolve, h t rfl]

theorem LeadsFurthest.cons (hd : root.child t = some d) (h : LeadsFurthest d run k c) :
    LeadsFurthest root (t :: run) (k + 1) c := by
  refine ⟨by simpa using h.le, by simpa [resolve_cons hd] using h.leads, ?_⟩
  intro j hj hle
  obtain ⟨j, rfl⟩ := Nat.exists_eq_add_one.2 (Nat.zero_lt_of_lt hj)
  rw [List.take_succ_cons, resolve_cons hd]
  exact h.furthest j (by omega) (by simpa using hle)

/-- From a command on, a run is taken apart where it leads no further, or stays whole. -/
theorem exists_splitFrom (c : Command) (ts : List String) (hl : l.positionals = []) :
    ∃ k d, LeadsFurthest c (leadingRun ts) k d ∧ splitFrom (some c) l ts =
      if k = (leadingRun ts).length ∨ endsPath d = true then
        l.append ((leadingRun ts).take k) ((leadingRun ts).drop k)
      else l.append (leadingRun ts) [] := by
  induction ts generalizing c l with
  | nil => exact ⟨0, c, leadsFurthest_zero nofun, Leading.append_nil.symm⟩
  | cons t ts ih =>
    rw [leadingRun_cons]
    cases hdash : startsWithDash t with
    | true =>
      refine ⟨0, c, leadsFurthest_zero nofun, ?_⟩
      rw [splitFrom_dash hdash, if_pos rfl, if_pos (.inl rfl)]
      exact Leading.append_nil.symm
    | false =>
      rw [if_neg Bool.false_ne_true]
      cases hchild : c.child t with
      | some e =>
        obtain ⟨k, d, hk, he⟩ := ih e (l := l.append [t] []) (by simp [Leading.append, hl])
        refine ⟨k + 1, d, hk.cons hchild, ?_⟩
        simp [splitFrom_child hdash hl hchild, he, Leading.append_append]
      | none =>
        have hzero : LeadsFurthest c (t :: leadingRun ts) 0 c :=
          leadsFurthest_zero fun u hu ↦ Option.some_inj.1 hu ▸ hchild
        refine ⟨0, c, hzero, ?_⟩
        cases hends : endsPath c with
        | true =>
          rw [splitFrom_ended hdash hchild hends, splitFrom_positionals (by simp [Leading.append]),
            Leading.append_append, if_pos (.inr rfl)]
          rfl
        | false =>
          rw [splitFrom_strayed hdash hl hchild hends,
            splitFrom_none (by simp [Leading.append, hl]), Leading.append_append, if_neg (by simp)]
          rfl

/-- Splitting leads as far down the tree as the tokens before the first with a dash do. The rest of
them are positionals of the command reached, if it has positionals or no subcommands; otherwise none
is, and the path leads to no command. -/
theorem exists_splitsAt (root : Command) (tokens : List String) :
    ∃ k c, LeadsFurthest root (leadingRun tokens) k c ∧
      SplitsAt root (leadingRun tokens) k c (splitPath root tokens) := by
  obtain ⟨k, c, hk, he⟩ := exists_splitFrom (l := {}) root tokens rfl
  refine ⟨k, c, hk, ?_⟩
  rw [splitPath, he]
  simp only [endsPath_iff]
  by_cases hends : k = (leadingRun tokens).length ∨ c.positionals ≠ [] ∨ c.subcommands = []
  · rw [if_pos hends]
    have hlengths := congrArg List.length (List.take_append_drop k (leadingRun tokens))
    rw [List.length_append] at hlengths
    exact ⟨by simpa [Leading.append] using hlengths, List.take_append_drop _ _,
      fun _ ↦ ⟨rfl, hk.leads, rfl⟩, fun h ↦ absurd hends h⟩
  · rw [if_neg hends]
    have hlost : root.resolve (leadingRun tokens) = none := by
      have hall := hk.furthest _ (lt_of_le_of_ne hk.le fun h ↦ hends (.inl h)) le_rfl
      rwa [List.take_length] at hall
    exact ⟨by simp [Leading.append], List.append_nil _, fun h ↦ absurd h hends,
      fun _ ↦ ⟨rfl, hlost, rfl⟩⟩

end Invocation

end CommandCoverage
