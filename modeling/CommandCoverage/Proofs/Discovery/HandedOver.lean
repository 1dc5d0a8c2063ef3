import CommandCoverage.Proofs.Discovery.DefaultExport
import CommandCoverage.Proofs.Discovery.Failing

namespace CommandCoverage

open Script Analysis

variable {w : Workspace} {entry : String} {σ τ υ : Session} {m : Module} {l : Located}
  {root : Option Located} {qs qs' : List Query}

def Script.Module.handedOver (m : Module) : List Node :=
  ((calls m).filter fun c ↦ c.calleeName.any mainRunners.contains).filterMap (·.arguments.head?)

def Script.Module.handed (m : Module) : List Query :=
  m.handedOver.map fun arg ↦ .source (m.classify (some arg)) m

/-- Once the entry file is read, discovery gives the command that was handed to a runner, or it
fails. -/
structure RunsHanded (w : Workspace) (entry : String) (σ : Session) (m : Module) (τ : Session) :
    Prop where
  root : ∀ c, ((discover w entry).run σ).1 = .ok c → ∃ l υ c' φ, Tries w m.handed τ (some l) υ ∧
    Builds w [] (.task (.definition "" l)) υ c' φ ∧ c = fromElsewhere l m c'
  fails : (∀ l υ, ¬Tries w m.handed τ (some l) υ) → ∃ f, ((discover w entry).run σ).1 = .error f

inductive TakenInstead (w : Workspace) (m : Module) (τ : Session) : Located → Prop
  | exported {l : Located} {υ φ : Session} (h : Tries w m.handed τ none υ)
      (hd : m.exports.contains "default" = true)
      (hf : Follows w false [] (.exported "default" m) υ (.ok l) φ) : TakenInstead w m τ l
  | written {d : Node} {υ : Session} (h : Tries w m.candidates τ none υ) (hd : FallsBack w m d) :
      TakenInstead w m τ ⟨d, m⟩

theorem candidates_eq : m.candidates = m.handed ++
    if m.exports.contains "default" then [.exported "default" m] else [] :=
  rfl

theorem Tries.append_found (h : Tries w qs σ (some l) τ) : Tries w (qs ++ qs') σ (some l) τ := by
  generalize hr : some l = root at h ⊢
  induction h with
  | none => cases hr
  | skipped hf _ ih => exact .skipped hf (ih hr)
  | found hf => exact .found hf

theorem Tries.append_skipped (h : Tries w qs σ Option.none τ) (h' : Tries w qs' τ root υ) :
    Tries w (qs ++ qs') σ root υ := by
  generalize hr : (Option.none : Option Located) = r at h
  induction h with
  | none => exact h'
  | skipped hf _ ih => exact .skipped hf (ih h' hr)
  | found hf => cases hr

theorem TakenInstead.not_handed (h : TakenInstead w m τ l) {l' : Located} :
    ¬Tries w m.handed τ (some l') υ := by
  intro h'
  cases h with
  | exported hnone => cases (hnone.unique h').1
  | written hnone =>
    have hfound : Tries w m.candidates τ (some l') υ := h'.append_found
    cases (hnone.unique hfound).1

theorem TakenInstead.chooses (h : TakenInstead w m τ l) : ∃ υ, Chooses w m τ (some l) υ := by
  cases h with
  | @exported _ _ φ hnone hd hf =>
    refine ⟨φ, .candidate ?_⟩
    rw [candidates_eq, if_pos hd]
    exact hnone.append_skipped (.found hf)
  | written hnone hd => exact ⟨_, .written hnone hd⟩

theorem Chooses.handed_or_takenInstead (h : Chooses w m τ (some l) υ) :
    Tries w m.handed τ (some l) υ ∨ TakenInstead w m τ l := by
  cases h with
  | written hnone hd => exact .inr (.written hnone hd)
  | candidate h =>
    rw [candidates_eq] at h
    rcases h.append_cases with ⟨_, hl, hhanded⟩ | ⟨φ, hnone, hdefault⟩
    · cases hl
      exact .inl hhanded
    · by_cases hd : m.exports.contains "default" = true
      · rw [if_pos hd] at hdefault
        cases hdefault with
        | found hf => exact .inr (.exported hnone hd hf)
        | skipped _ h => cases h
      · rw [if_neg hd] at hdefault
        cases hdefault

/-- The command handed to a runner is the root, or discovery fails, exactly if one of the arguments
can be resolved or what would be taken instead has no name. -/
theorem runsHanded_iff (he : Enters w entry σ m τ) : RunsHanded w entry σ m τ ↔
    (∃ l υ, Tries w m.handed τ (some l) υ) ∨ ∀ l, TakenInstead w m τ l → ¬l.Named := by
  constructor
  · intro h
    by_cases hhanded : ∃ l υ, Tries w m.handed τ (some l) υ
    · exact .inl hhanded
    refine .inr fun l hl hn ↦ hhanded ?_
    obtain ⟨υ, hc⟩ := hl.chooses
    obtain ⟨c, φ, hb⟩ := exists_builds w [] (.definition "" l) υ
    have hok : ((discover w entry).run σ).1 = .ok (fromElsewhere l m c) :=
      he.discover_tree hc hn hb
    obtain ⟨l', υ', -, -, htries, -⟩ := h.root _ hok
    exact ⟨l', υ', htries⟩
  · intro h
    have hroot : ∀ c, ((discover w entry).run σ).1 = .ok c → ∃ l υ c' φ,
        Tries w m.handed τ (some l) υ ∧ Builds w [] (.task (.definition "" l)) υ c' φ ∧
          c = fromElsewhere l m c' := by
      intro c hok
      obtain ⟨l, υ, c', φ, hc, hn, hb, rfl⟩ := he.tree_iff.1 hok
      rcases hc.handed_or_takenInstead with hhanded | htaken
      · exact ⟨l, υ, c', φ, hhanded, hb, rfl⟩
      · rcases h with ⟨l', υ', hhanded⟩ | hunnamed
        · exact absurd hhanded htaken.not_handed
        · exact absurd hn (hunnamed l htaken)
    refine ⟨hroot, fun hnone ↦ ?_⟩
    cases hr : ((discover w entry).run σ).1 with
    | error f => exact ⟨f, rfl⟩
    | ok c =>
      obtain ⟨l, υ, -, -, htries, -⟩ := hroot c hr
      exact absurd htries (hnone l υ)

section unfollowed

/-- A file that hands an import of a file that is missing to a runner, and defines another command. -/
def unfollowedText : String :=
  "import m from './b.mjs'\nrunMain(m)\ndefineCommand(\x7b meta: \x7b name: 'c' \x7d \x7d)\n"

def unfollowedWorkspace : Workspace where
  files := .single "a.mjs" unfollowedText.toUTF8.toList
  maxFileSize := 100

def unfollowed : Module := moduleOf "a.mjs" unfollowedText

def untouched : Session where
  cache := { ttl := 1, maxSize := 1, enabled := false }

def handedImports (m : Module) : List (Option (Import × String)) :=
  m.handedOver.map fun arg ↦
    match m.classify (some arg) with
    | .imported i fromFile => some (i, fromFile)
    | _ => none

-- The checks are made together: each alone would parse the text again.
theorem reading_unfollowed : (parseFile "a.mjs" unfollowedText).isSome = true ∧
    handedImports unfollowed = [some (⟨"./b.mjs", "default"⟩, "a.mjs")] ∧
    unfollowed.exports.contains "default" = false ∧
    (writtenDefinitions unfollowed).isEmpty = false ∧
    (writtenDefinitions unfollowed).all
      (fun d ↦ unfollowed.memberText d "meta" "name" == some "c") = true := by
  decide +kernel

theorem enters_unfollowed : ∃ τ, Enters unfollowedWorkspace "a.mjs" untouched unfollowed τ := by
  have htext : Text.decodeUtf8 unfollowedText.toUTF8.toList = .ok unfollowedText ∧
      unfollowedText.toUTF8.toList.length ≤ 100 := by
    simp only [Text.toList_toUTF8]
    decide +kernel
  have hread : unfollowedWorkspace.files.read unfollowedWorkspace.maxFileSize "a.mjs" =
      .ok ⟨"a.mjs", unfollowedText, unfollowedText.toUTF8.toList.length⟩ :=
    read_eq_ok_iff.2 ⟨_, rfl, htext.2, htext.1, rfl, rfl⟩
  have hparse := reading_unfollowed.1
  obtain ⟨tree, htree⟩ := Option.isSome_iff_exists.1 hparse
  have hmodule : unfollowed = .ofRoot "a.mjs" tree := by
    rw [unfollowed, moduleOf, htree, Option.getD_some]
  obtain ⟨τ, hloads⟩ : ∃ τ, Loads unfollowedWorkspace "a.mjs"
      { untouched with modules := {}, warnings := [] } (.ok unfollowed) τ :=
    loads_moduleOf rfl rfl ⟨_, hread⟩ hparse
  have hplaced : ¬unfollowedWorkspace.Lost "a.mjs" := fun h ↦ by cases h.2
  exact ⟨τ, hplaced, rfl, ⟨_, tree, hread, htree, hmodule⟩, hloads⟩

theorem handed_unfollowed :
    unfollowed.handed = [.source (.imported ⟨"./b.mjs", "default"⟩ "a.mjs") unfollowed] := by
  obtain ⟨-, himports, -⟩ := reading_unfollowed
  obtain ⟨arg, harg⟩ : ∃ arg, unfollowed.handedOver = [arg] := by
    rw [← List.length_eq_one_iff, ← List.length_map, ← handedImports, himports]
    rfl
  rw [handedImports, harg] at himports
  rw [Script.Module.handed, harg]
  cases hc : unfollowed.classify (some arg) <;> simp_all

theorem follows_unfollowed (τ : Session) : Follows unfollowedWorkspace false []
    (.source (.imported ⟨"./b.mjs", "default"⟩ "a.mjs") unfollowed) τ
    (.error (.missingModule "./b.mjs" "a.mjs")) τ :=
  .answer (.nowhere rfl (by decide +kernel))

theorem tries_unfollowed (τ : Session) :
    Tries unfollowedWorkspace unfollowed.handed τ none τ := by
  rw [handed_unfollowed]
  exact .skipped (follows_unfollowed τ) .none

theorem takenInstead_unfollowed (τ : Session) :
    ∃ l, TakenInstead unfollowedWorkspace unfollowed τ l ∧ l.Named := by
  obtain ⟨-, -, hexports, hsome, hnamed⟩ := reading_unfollowed
  have hcandidates : Tries unfollowedWorkspace unfollowed.candidates τ none τ := by
    rw [candidates_eq, hexports]
    exact (tries_unfollowed τ).append_skipped .none
  obtain ⟨root, υ, hchooses, -⟩ := exists_chooses unfollowedWorkspace unfollowed τ
  cases hchooses with
  | candidate h => cases (h.unique hcandidates).1
  | nothing _ hw => simp [hw] at hsome
  | @written d _ h hd =>
    have hname := List.all_eq_true.1 hnamed d (List.mem_of_mem_filter hd.mem)
    exact ⟨_, .written h hd, "c", eq_of_beq hname, by decide⟩

/-- No argument handed to a runner can be resolved, and still discovery gives a tree. -/
theorem exists_root_not_handed : ∃ (w : Workspace) (entry : String) (σ : Session) (m : Module)
    (τ : Session), Enters w entry σ m τ ∧ m.handedOver ≠ [] ∧
      (∀ l υ, ¬Tries w m.handed τ (some l) υ) ∧
      (∃ c, ((discover w entry).run σ).1 = .ok c) ∧ ¬RunsHanded w entry σ m τ := by
  obtain ⟨τ, he⟩ := enters_unfollowed
  obtain ⟨l, htaken, hnamed⟩ := takenInstead_unfollowed τ
  obtain ⟨υ, hc⟩ := htaken.chooses
  obtain ⟨c, φ, hb⟩ := exists_builds unfollowedWorkspace [] (.definition "" l) υ
  have hok := he.discover_tree hc hnamed hb
  have hhanded : unfollowed.handedOver ≠ [] := by
    intro hnil
    obtain ⟨-, himports, -⟩ := reading_unfollowed
    rw [handedImports, hnil] at himports
    cases himports
  refine ⟨_, _, _, _, τ, he, hhanded, fun l υ ↦ htaken.not_handed, ⟨_, hok⟩, fun hruns ↦ ?_⟩
  obtain ⟨l', υ', -, -, htries, -⟩ := hruns.root _ hok
  exact htaken.not_handed htries

theorem runsHanded_iff_unfollowed : ∃ τ, Enters unfollowedWorkspace "a.mjs" untouched unfollowed τ ∧
    (RunsHanded unfollowedWorkspace "a.mjs" untouched unfollowed τ ↔
      (∃ l υ, Tries unfollowedWorkspace unfollowed.handed τ (some l) υ) ∨
        ∀ l, TakenInstead unfollowedWorkspace unfollowed τ l → ¬l.Named) := by
  obtain ⟨τ, he⟩ := enters_unfollowed
  exact ⟨τ, he, runsHanded_iff he⟩

end unfollowed

end CommandCoverage
