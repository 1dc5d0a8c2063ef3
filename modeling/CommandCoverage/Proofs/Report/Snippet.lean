import CommandCoverage.Proofs.Invocation.Calls
import CommandCoverage.Proofs.Script.Tests
import CommandCoverage.Report.Recommendation

namespace CommandCoverage

open Script

namespace Script

variable {n : Node} {raw runner : List Char} {raws : List (List Char)}

namespace Parser

open Node

theorem IsString.stringValue_eq (h : IsString raw n) :
    stringValue n = some (String.ofList (decode raw)) := by
  have htext : n.text.toList = quoted raw := by rw [h.text, String.toList_ofList]
  have hquotes : Quotes n '\'' raw := .string h.node.kind (.inl rfl) htext
  exact hquotes.stringValue_eq

theorem IsStrings.spells (h : IsStrings raws n) :
    n.Spells (raws.map fun raw ↦ String.ofList (decode raw)) := by
  obtain ⟨ns, hn, hns⟩ := h
  rw [Spells, parts, hn.children, List.forall₂_map_right_iff]
  clear hn
  induction hns with
  | nil => exact .nil
  | cons h _ ih =>
    rw [List.filter_cons_of_pos (by rw [h.node.kind]; rfl)]
    exact .cons h.stringValue_eq ih

theorem IsRun.literalValue_eq_iff {tokens : List String}
    (h : IsRun runner (tokens.map String.toList) n)
    (htokens : ∀ t ∈ tokens, ∃ ss, Writes '\'' t.toList ss) :
    n.arguments.head?.bind literalValue = some (.list (tokens.map .text)) ↔
      ∀ t ∈ tokens, '\\' ∉ t.toList := by
  obtain ⟨callee, -, hcall⟩ := h
  obtain ⟨_, ⟨array, harray, rfl⟩, hargs⟩ := hcall.arguments_eq
  have hkind : array.kind = .array := by
    obtain ⟨_, hn, -⟩ := harray
    exact hn.kind
  rw [hargs, List.filter_cons_of_pos (by rw [hkind]; rfl), List.head?_cons, Option.bind_some,
    literalValue_eq_texts_iff hkind]
  have hspells : array.Spells (tokens.map fun t ↦ String.ofList (decode t.toList)) := by
    have hraws := harray.spells
    rwa [List.map_map] at hraws
  have hself : array.Spells tokens ↔
      tokens.map (fun t ↦ String.ofList (decode t.toList)) = tokens :=
    ⟨fun h ↦ hspells.unique h, fun h ↦ h ▸ hspells⟩
  have hmap : tokens.map (fun t ↦ String.ofList (decode t.toList)) = tokens ↔
      ∀ t ∈ tokens, String.ofList (decode t.toList) = t := by
    simpa using List.map_inj_left (l := tokens) (g := id)
  rw [hself, hmap]
  refine forall₂_congr fun t ht ↦ ?_
  obtain ⟨ss, hss⟩ := htokens t ht
  rw [← hss.decode_eq_self_iff, ← String.toList_inj, String.toList_ofList]

theorem intercalate_quoted (raw : List Char) (raws : List (List Char)) :
    [',', ' '].intercalate ((raw :: raws).map quoted) =
      quoted raw ++ listed (raws.map fun x ↦ (' ' :: quoted x, IsString x)) := by
  induction raws generalizing raw with
  | nil => simp
  | cons x raws ih =>
    rw [List.map_cons, List.map_cons, List.intercalate_cons_cons, ← List.map_cons, ih,
      List.map_cons, listed_cons]
    simp

end Parser

end Script

namespace Untested

open Script.Parser

variable {u : Untested} {runner : String} {tokens : List String}

theorem tokens_ne_nil (h : u.tokens = .ok tokens) : tokens ≠ [] := by
  unfold Untested.tokens at h
  split at h
  · exact Except.ok.inj h ▸ List.append_ne_nil_of_right_ne_nil _ (List.cons_ne_nil _ _)
  · split at h
    · exact Except.ok.inj h ▸ List.append_ne_nil_of_right_ne_nil _ (List.cons_ne_nil _ _)
    · rename_i a _ _
      cases hs : a.sample with
      | error f => simp [hs, Except.map] at h
      | ok value =>
        rw [hs] at h
        exact Except.ok.inj h ▸ List.append_ne_nil_of_right_ne_nil _ (List.cons_ne_nil _ _)

theorem recommendation_of_tokens (h : u.tokens = .ok tokens) :
    ∃ r, u.recommendation runner = .ok r ∧ r.example_ = some (u.testOf runner tokens) := by
  rw [recommendation, snippet, h]
  exact ⟨_, rfl, rfl⟩

theorem testOf_eq {raw : List Char} {raws : List (List Char)}
    (h : tokens.map String.toList = raw :: raws) :
    (u.testOf runner tokens).toList = testText u.title.toList runner.toList raw raws := by
  have hquoted : (tokens.map fun t ↦ "'" ++ t ++ "'").map String.toList =
      (raw :: raws).map quoted := by
    rw [← h, List.map_map, List.map_map]
    refine List.map_congr_left fun t _ ↦ ?_
    simp [quoted]
  have hseparator : ", ".toList = [',', ' '] := by decide
  rw [testOf]
  iterate 6 rw [String.toList_append]
  rw [String.toList_intercalate, hquoted, hseparator, intercalate_quoted]
  -- the equations of these texts would spell out every word in them
  delta testText asyncArrow blockText
  delta runText successText
  simp only [quoted, indent, handedText, arrayText, List.append_assoc, List.cons_append,
    List.nil_append]
  rfl

/-- The example of the item is a script with one call of the runner, which hands over the tokens of
the item. -/
def Says (runner : String) (u : Untested) : Prop :=
  ∃ r tokens text root call, u.recommendation runner = .ok r ∧ u.tokens = .ok tokens ∧
    r.example_ = some text ∧ parse .javascript text.toList = some root ∧
    FileFinding.runnerCalls [runner] root = [call] ∧
    call.arguments.head?.bind literalValue = some (.list (tokens.map .text))

def apostropheTree : Command :=
  { name := "cli", subcommands := [{ name := "it's" }] }

theorem exists_snippet_not_parsed : ∃ u ∈ Untested.ofTree apostropheTree,
    IsWord "run".toList ∧ reserved.contains "run" = false ∧
      (∃ text, u.snippet "run" = .ok text ∧ parse .javascript text.toList = none) ∧
      ¬u.Says "run" := by
  let u : Untested := ⟨.subcommand, "cli it's", ["it's"], none⟩
  have hparse : parse .javascript (u.testOf "run" ["it's", "--help"]).toList = none := by
    decide +kernel
  refine ⟨u, ?_, isWord_of_chars (by decide) (by decide), by decide, ⟨_, rfl, hparse⟩, ?_⟩
  · exact List.mem_cons_of_mem _ List.mem_cons_self
  · rintro ⟨r, tokens, text, root, call, hr, -, htext, hroot, -⟩
    obtain rfl := Except.ok.inj hr
    obtain rfl : u.testOf "run" ["it's", "--help"] = text := Option.some_inj.1 htext
    rw [hparse] at hroot
    cases hroot

theorem runnerCalls_eq (runners : List String) (tree : Node) :
    FileFinding.runnerCalls runners tree =
      tree.calls.filter fun n ↦ n.calleeName.any runners.contains := by
  rw [FileFinding.runnerCalls, Node.calls, List.filter_filter]
  exact List.filter_congr fun n _ ↦ Bool.and_comm _ _

theorem runnerCalls_eq_singleton_iff {tree test run success call : Node}
    (hcalls : tree.calls = [test, run, success]) (htest : test.calleeName = some "test")
    (hrun : run.calleeName = if runner = "undefined" then none else some runner)
    (hsuccess : success.calleeName = some "expectSuccess") :
    FileFinding.runnerCalls [runner] tree = [call] ↔
      runner ∉ ["test", "expectSuccess", "undefined"] ∧ run = call := by
  rw [runnerCalls_eq, hcalls]
  by_cases hundefined : runner = "undefined"
  · subst hundefined
    simp [htest, hrun, hsuccess]
  · rw [if_neg hundefined] at hrun
    by_cases hname : runner = "test"
    · subst hname
      simp [htest, hrun, hsuccess]
    · by_cases hexpect : runner = "expectSuccess"
      · subst hexpect
        simp [htest, hrun, hsuccess]
      · simp [htest, hrun, hsuccess, hundefined, hname, hexpect, Ne.symm hname, Ne.symm hexpect]

/-- Where all texts can stand between quotes as they are, the example says what it means exactly if
nothing is escaped in the tokens and the runner is no other name of the example. -/
theorem says_iff (hw : IsWord runner.toList) (hn : reserved.contains runner = false)
    (hsome : u.tokens = .ok tokens) (htitle : ∃ ss, Writes '\'' u.title.toList ss)
    (htokens : ∀ t ∈ tokens, ∃ ss, Writes '\'' t.toList ss) :
    u.Says runner ↔ runner ∉ ["test", "expectSuccess", "undefined"] ∧
      ∀ t ∈ tokens, '\\' ∉ t.toList := by
  obtain ⟨raw, raws, hraws⟩ : ∃ raw raws, tokens.map String.toList = raw :: raws :=
    List.exists_cons_of_ne_nil (by simpa using tokens_ne_nil hsome)
  have hwrites : ∀ x ∈ raw :: raws, ∃ ss, Writes '\'' x ss := by
    rw [← hraws]
    simpa using htokens
  obtain ⟨root, statement, hparse, hroot, test, htest, hstatement⟩ :=
    parse_test hw (by rwa [String.ofList_toList]) htitle hwrites
  rw [← testOf_eq hraws] at hparse
  rw [← hraws] at htest
  obtain ⟨run, success, hrun, hsuccess, hcalls⟩ := htest.calls_eq
  have hall : root.calls = [test, run, success] := by
    rw [hroot.calls_of_ne (by decide), List.flatMap_singleton, hstatement.calls_of_ne (by decide),
      List.flatMap_singleton, hcalls]
  have hname : run.calleeName = if runner = "undefined" then none else some runner := by
    rw [hrun.calleeName_eq, String.ofList_toList]
  have hcall (call : Node) : FileFinding.runnerCalls [runner] root = [call] ↔
      runner ∉ ["test", "expectSuccess", "undefined"] ∧ run = call :=
    runnerCalls_eq_singleton_iff hall htest.calleeName_eq hname hsuccess.calleeName_eq
  obtain ⟨r, hr, hexample⟩ : ∃ r, u.recommendation runner = .ok r ∧
      r.example_ = some (u.testOf runner tokens) := recommendation_of_tokens hsome
  constructor
  · rintro ⟨r', tokens', text, root', call, hr', hsome', htext, hparse', hone, hvalue⟩
    obtain rfl := Except.ok.inj (hr.symm.trans hr')
    obtain rfl := Except.ok.inj (hsome.symm.trans hsome')
    obtain rfl := Option.some_inj.1 (hexample.symm.trans htext)
    obtain rfl := Option.some_inj.1 (hparse.symm.trans hparse')
    obtain ⟨hrunner, rfl⟩ := (hcall call).1 hone
    exact ⟨hrunner, (hrun.literalValue_eq_iff htokens).1 hvalue⟩
  · rintro ⟨hrunner, hplain⟩
    exact ⟨r, tokens, _, root, run, hr, hsome, hexample, hparse, (hcall run).2 ⟨hrunner, rfl⟩,
      (hrun.literalValue_eq_iff htokens).2 hplain⟩

def outOption (value : String) : Untested :=
  ⟨.option, "cli build", ["build"], some { name := "out", default := .text value }⟩

theorem says_iff_values : (outOption "dist").Says "run" ∧ ¬(outOption "C:\\new").Says "run" := by
  have hw : IsWord "run".toList := isWord_of_chars (by decide) (by decide)
  have hplain (t : String) (h : t.toList.all (isPlain '\'') = true) :
      ∃ ss, Writes '\'' t.toList ss := ⟨_, Writes.of_isPlain (List.all_eq_true.1 h)⟩
  have htitle (value : String) : ∃ ss, Writes '\'' (outOption value).title.toList ss :=
    hplain "cli build --out option" (by decide)
  have htokens (value : String) (h : ∃ ss, Writes '\'' value.toList ss) :
      ∀ t ∈ ["build", "--out", value], ∃ ss, Writes '\'' t.toList ss :=
    List.forall_mem_cons.2 ⟨hplain "build" (by decide), List.forall_mem_cons.2
      ⟨hplain "--out" (by decide), List.forall_mem_singleton.2 h⟩⟩
  have hescape : ∃ ss, Writes '\'' "C:\\new".toList ss :=
    ⟨_, .itself (by decide) (.itself (by decide) (.letter (c := '\n') (by decide)
      (.itself (by decide) (.itself (by decide) .nil))))⟩
  constructor
  · apply (says_iff hw (by decide) rfl (htitle "dist") (htokens "dist" (hplain "dist" (by decide)))).2
    decide
  · rw [says_iff hw (by decide) rfl (htitle "C:\\new") (htokens "C:\\new" hescape)]
    decide

end Untested

end CommandCoverage
