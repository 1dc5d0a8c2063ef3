import CommandCoverage.Proofs.Script.Preorder
import CommandCoverage.Proofs.Script.Statements
import CommandCoverage.Script.Member

namespace CommandCoverage.Script

namespace Node

variable {n : Node} {r : Role}

def calls (n : Node) : List Node := n.walk.filter (·.kind == .call)

theorem calls_eq (n : Node) :
    n.calls = (if n.kind = .call then [n] else []) ++ n.children.flatMap calls := by
  have hbelow : (n.children.flatMap walk).filter (·.kind == .call) = n.children.flatMap calls :=
    List.filter_flatMap
  rw [calls, walk_eq, List.filter_cons, hbelow]
  by_cases hk : n.kind = .call
  · simp [hk]
  · simp [hk]

theorem kind_ne_of_calls_eq_nil (h : n.calls = []) : n.kind ≠ .call := by
  intro hk
  rw [calls_eq, if_pos hk] at h
  cases h

theorem calls_inRole (hk : n.kind ≠ .call) : (n.inRole r).calls = n.calls := by
  rw [calls_eq, calls_eq n, inRole, if_neg hk, if_neg hk]

theorem calls_inRole_eq_nil (h : n.calls = []) : (n.inRole r).calls = [] := by
  rw [calls_inRole (kind_ne_of_calls_eq_nil h), h]

end Node

namespace Parser

variable {r raw runner title : List Char} {raws : List (List Char)} {n : Nat}

def javascript (n : Nat) : Grammar := ⟨false, true, nested .javascript n⟩

theorem readsStrings_javascript (n : Nat) : ReadsStrings (javascript (n + 1)) :=
  fun hb h hq ↦ reads_fullExpression_string (g := javascript n) rfl hb h hq

theorem Closes.refuses_javascript (h : Closes r) :
    Refuses ((javascript (n + 1)).parse (.expression true)) r :=
  h.refuses_fullExpression (g := javascript n) (b := []) rfl blank_nil

section texts

def indent : List Char := ['\n', ' ', ' ']

def handedText (raw : List Char) (raws : List (List Char)) : List Char :=
  '(' :: (arrayText raw raws ++ [')'])

def runText (runner raw : List Char) (raws : List (List Char)) : List Char :=
  "const".toList ++ ' ' :: ("result".toList ++ ([' ', '='] ++ ' ' ::
    ("await".toList ++ ' ' :: (runner ++ handedText raw raws))))

def successText : List Char := "result".toList ++ ('.' :: "expectSuccess".toList ++ ['(', ')'])

def blockText (runner raw : List Char) (raws : List (List Char)) : List Char :=
  '\x7b' :: (indent ++ runText runner raw raws ++ (indent ++ successText) ++
    (['\n'] ++ ['\x7d']))

def testText (title runner raw : List Char) (raws : List (List Char)) : List Char :=
  "test".toList ++
    '(' :: (quoted title ++ ',' :: ' ' :: asyncArrow (' ' :: blockText runner raw raws) ++ [')'])

end texts

section shapes

def IsRun (runner : List Char) (raws : List (List Char)) : Node → Prop :=
  IsNamedCall runner fun ns ↦ ∃ tokens, IsStrings raws tokens ∧ ns = [tokens]

def IsSuccess : Node → Prop := IsMemberCall "result".toList "expectSuccess".toList (· = [])

def IsTestBody (runner : List Char) (raws : List (List Char)) : Node → Prop :=
  IsBlock fun ns ↦ ∃ run success, IsConstant "result".toList (IsAwait (IsRun runner raws)) run ∧
    IsStatement IsSuccess success ∧ ns = [run, success]

def IsTest (title runner : List Char) (raws : List (List Char)) : Node → Prop :=
  IsNamedCall "test".toList fun ns ↦ ∃ name function, IsString title name ∧
    IsArrow (IsTestBody runner raws) function ∧ ns = [name, function]

end shapes

theorem reads_handed (h : ∀ x ∈ raw :: raws, ∃ ss, Writes '\'' x ss) :
    ReadsArguments (javascript (n + 2)) (handedText raw raws) r
      fun ns ↦ ∃ tokens, IsStrings (raw :: raws) tokens ∧ ns = [tokens] := by
  have hread := reads_arguments (g := javascript (n + 2)) (r := r)
    (a := (arrayText raw raws, IsStrings (raw :: raws))) (l := []) ?_
  · rw [listed_nil, List.append_nil] at hread
    refine hread.mono ?_
    rintro m ⟨_, hm, hns⟩
    cases hns with
    | cons h hnil =>
      cases hnil
      exact ⟨_, hm, _, h, rfl⟩
  · intro x hx t hq
    obtain rfl := List.mem_singleton.1 hx
    have hd : Differs (arrayText raw raws ++ t) "..." :=
      differs_of_head (c := '[') rfl (by decide) (by decide)
    exact reads_item (b := []) blank_nil rfl hd
      (hq.reads_fullExpression_array rfl (readsStrings_javascript n) blank_nil h)

theorem ends_run : Ends (indent ++ successText ++ (['\n'] ++ '\x7d' :: r)) :=
  ⟨indent, successText ++ (['\n'] ++ '\x7d' :: r), by simp, by decide, rfl,
    differs_of_head (c := 'r') rfl (by decide) (by decide),
    differs_of_head (c := 'r') rfl (by decide) (by decide), .inr (.inr ⟨by decide, rfl⟩)⟩

theorem quiet_run : Quiet (indent ++ successText ++ (['\n'] ++ '\x7d' :: r)) := by
  refine ⟨indent, successText ++ (['\n'] ++ '\x7d' :: r), by simp, by decide, rfl, ?_⟩
  rintro ch hch
  obtain rfl := Option.some_inj.1 hch
  decide

theorem reads_run (hw : IsWord runner) (hn : reserved.contains (String.ofList runner) = false)
    (h : ∀ x ∈ raw :: raws, ∃ ss, Writes '\'' x ss) :
    Reads (anyStatement (javascript (n + 4))) (indent ++ runText runner raw raws)
      (indent ++ successText ++ (['\n'] ++ '\x7d' :: r))
      (IsConstant "result".toList (IsAwait (IsRun runner (raw :: raws)))) := by
  have hresult : IsWord "result".toList := isWord_of_chars (by decide) (by decide)
  have hrun : Reads (unary (javascript (n + 2))) (' ' :: (runner ++ handedText raw raws))
      (indent ++ successText ++ (['\n'] ++ '\x7d' :: r)) (IsRun runner (raw :: raws)) :=
    quiet_run.reads_unary_call (b := [' ']) rfl (by decide) hw hn rfl (reads_handed h)
  have hawait : Reads (fullExpression (javascript (n + 3)) true)
      (' ' :: ("await".toList ++ ' ' :: (runner ++ handedText raw raws)))
      (indent ++ successText ++ (['\n'] ++ '\x7d' :: r))
      (IsAwait (IsRun runner (raw :: raws))) :=
    reads_fullExpression_await (b := [' ']) rfl (by decide) quiet_run rfl hrun
  exact ends_run.reads_constant rfl (by decide) hresult (by decide) hawait

theorem reads_success : Reads (anyStatement (javascript (n + 4))) (indent ++ successText)
    (['\n'] ++ '\x7d' :: r) (IsStatement IsSuccess) := by
  have hresult : IsWord "result".toList := isWord_of_chars (by decide) (by decide)
  have hexpect : IsWord "expectSuccess".toList := isWord_of_chars (by decide) (by decide)
  have hnames : reserved.contains (String.ofList "result".toList) = false := by decide
  have hquiet : Quiet (['\n'] ++ '\x7d' :: r) := by
    refine ⟨['\n'], '\x7d' :: r, rfl, by decide, rfl, ?_⟩
    rintro ch hch
    obtain rfl := Option.some_inj.1 hch
    decide
  have hends : Ends (['\n'] ++ '\x7d' :: r) :=
    ⟨['\n'], '\x7d' :: r, rfl, by decide, rfl,
      differs_of_head (c := '\x7d') rfl (by decide) (by decide),
      differs_of_head (c := '\x7d') rfl (by decide) (by decide), .inr (.inl rfl)⟩
  have hargs : ReadsArguments (javascript (n + 3)) ['(', ')'] (['\n'] ++ '\x7d' :: r) (· = []) :=
    reads_noArguments (Closes.refuses_javascript (.inl rfl))
  have hcall : Reads (unary (javascript (n + 3))) successText (['\n'] ++ '\x7d' :: r) IsSuccess :=
    hquiet.reads_unary_memberCall (b := []) rfl blank_nil hresult hnames hexpect rfl rfl hargs
  have hexpression : Reads (fullExpression (javascript (n + 3)) true) successText
      (['\n'] ++ '\x7d' :: r) IsSuccess :=
    hquiet.reads_fullExpression_word (b := []) rfl blank_nil hresult hnames (by decide) (by decide)
      (.inr rfl) hcall
  exact hends.reads_wordStatement rfl (by decide) hresult hnames (by decide) (by decide) (.inr rfl)
    hexpression

theorem reads_testBody (hw : IsWord runner) (hn : reserved.contains (String.ofList runner) = false)
    (h : ∀ x ∈ raw :: raws, ∃ ss, Writes '\'' x ss) :
    Reads (block (javascript (n + 5))) (' ' :: blockText runner raw raws) r
      (IsTestBody runner (raw :: raws)) := by
  have hend : Refuses (anyStatement (javascript (n + 4))) (['\n'] ++ '\x7d' :: r) :=
    refuses_statement_of_brace rfl (by decide) rfl (Closes.refuses_javascript (.inr rfl))
  have hsuccess := Reads.repeats (s := indent ++ successText) (t := []) reads_success
    (List.cons_ne_nil _ _) hend.repeats
  rw [List.append_nil] at hsuccess
  have hrun := Reads.repeats (s := indent ++ runText runner raw raws) (reads_run hw hn h)
    (List.cons_ne_nil _ _) hsuccess
  refine (reads_block (g := javascript (n + 5)) (b := [' ']) (by decide) (by decide) hrun).mono ?_
  rintro m ⟨ns, hm, run, _, rfl, hrun, success, _, rfl, hsuccess, rfl⟩
  exact ⟨_, hm, run, success, hrun, hsuccess, rfl⟩

theorem reads_testArguments (hw : IsWord runner)
    (hn : reserved.contains (String.ofList runner) = false)
    (htitle : ∃ ss, Writes '\'' title ss) (h : ∀ x ∈ raw :: raws, ∃ ss, Writes '\'' x ss) :
    ReadsArguments (javascript (n + 6)) ('(' :: (quoted title ++
      ',' :: ' ' :: asyncArrow (' ' :: blockText runner raw raws) ++ [')'])) r fun ns ↦
        ∃ name function, IsString title name ∧ IsArrow (IsTestBody runner (raw :: raws)) function ∧
          ns = [name, function] := by
  have hread := reads_arguments (g := javascript (n + 6)) (r := r)
    (a := (quoted title, IsString title)) (l := [(' ' :: asyncArrow (' ' :: blockText
      runner raw raws), IsArrow (IsTestBody runner (raw :: raws)))]) ?_
  · rw [listed_cons, listed_nil, List.append_nil] at hread
    refine hread.mono ?_
    rintro m ⟨_, hm, hns⟩
    cases hns with
    | cons hname hrest =>
      cases hrest with
      | cons hfunction hnil =>
        cases hnil
        exact ⟨_, hm, _, _, hname, hfunction, rfl⟩
  · intro x hx t hq
    rcases List.mem_cons.1 hx with rfl | hx
    · exact reads_element (b := []) (readsStrings_javascript (n + 5)) blank_nil htitle hq
    · obtain rfl := List.mem_singleton.1 hx
      have hd : Differs (asyncArrow (' ' :: blockText runner raw raws) ++ t) "..." :=
        differs_of_head (c := 'a') rfl (by decide) (by decide)
      refine reads_item (b := [' ']) (by decide) rfl hd ?_
      refine reads_fullExpression_arrow (g := javascript (n + 5)) (b := [' ']) rfl (by decide) hq
        rfl (reads_testBody hw hn h) ?_
      rintro m ⟨_, hm, _⟩
      exact hm.kind

theorem reads_test (hw : IsWord runner) (hn : reserved.contains (String.ofList runner) = false)
    (htitle : ∃ ss, Writes '\'' title ss) (h : ∀ x ∈ raw :: raws, ∃ ss, Writes '\'' x ss) :
    Reads (anyStatement (javascript (n + 7))) (testText title runner raw raws) []
      (IsStatement (IsTest title runner (raw :: raws))) := by
  have htest : IsWord "test".toList := isWord_of_chars (by decide) (by decide)
  have hnames : reserved.contains (String.ofList "test".toList) = false := by decide
  have hquiet : Quiet [] := ⟨[], [], rfl, blank_nil, rfl, by simp⟩
  have hends : Ends [] :=
    ⟨[], [], rfl, blank_nil, rfl, ⟨by simp, by decide⟩, ⟨by simp, by decide⟩, .inl rfl⟩
  have hcall : Reads (unary (javascript (n + 6))) (testText title runner raw raws) []
      (IsTest title runner (raw :: raws)) :=
    hquiet.reads_unary_call (b := []) rfl blank_nil htest hnames rfl
      (reads_testArguments hw hn htitle h)
  have hexpression : Reads (fullExpression (javascript (n + 6)) true)
      (testText title runner raw raws) [] (IsTest title runner (raw :: raws)) :=
    hquiet.reads_fullExpression_word (b := []) rfl blank_nil htest hnames (by decide) (by decide)
      (.inl rfl) hcall
  exact hends.reads_wordStatement (b := []) rfl blank_nil htest hnames (by decide) (by decide)
    (.inl rfl) hexpression

/-- A source whose statements end with it, and that has no comments, is a program of them. -/
theorem exists_parse {d : Dialect} {source : List Char} {L : List Node → Prop}
    (h : Repeats (nested d (4 * source.length + 16) .statement) source [] L) :
    ∃ root ns, parse d source = some root ∧ IsNode .program ns root ∧ L ns := by
  let stop := (Cursor.ofList source).advance source.length
  have hrest : (Cursor.ofList source).rest = source ++ [] := (List.append_nil _).symm
  have hfits : (Cursor.ofList source).Fits := Nat.le_refl _
  obtain ⟨ns, hread, hL⟩ := h.reads _ hfits hrest
  have hend : stop.rest = [] := rest_of_advance hrest
  have hnext : stop.next = stop := Cursor.next_eq (b := []) (hfits.advance _) hend blank_nil rfl
  have hcomments : stop.comments = [] := Cursor.comments_advance _ _
  let root : Node :=
    { kind := .program, stop := stop.offset, text := String.ofList source, children := ns }
  refine ⟨root, ns, ?_, ⟨rfl, rfl, rfl⟩, hL⟩
  rw [parse, hread, Option.bind_eq_bind, Option.bind_some]
  dsimp only
  rw [hnext, hend, hcomments]
  rfl

theorem parse_test (hw : IsWord runner) (hn : reserved.contains (String.ofList runner) = false)
    (htitle : ∃ ss, Writes '\'' title ss) (h : ∀ x ∈ raw :: raws, ∃ ss, Writes '\'' x ss) :
    ∃ root statement, parse .javascript (testText title runner raw raws) = some root ∧
      IsNode .program [statement] root ∧
      IsStatement (IsTest title runner (raw :: raws)) statement := by
  -- a test is eight levels deep
  let fuel := 4 * (testText title runner raw raws).length + 8
  have htest : Reads (nested .javascript (fuel + 8) .statement) (testText title runner raw raws) []
      (IsStatement (IsTest title runner (raw :: raws))) := reads_test (n := fuel) hw hn htitle h
  have hend : Refuses (nested .javascript (fuel + 8) .statement) [] :=
    refuses_statement_nil (g := javascript (fuel + 7))
  have hall := Reads.repeats (t := []) htest (List.cons_ne_nil _ _) hend.repeats
  rw [List.append_nil] at hall
  obtain ⟨root, _, hparse, hroot, statement, _, rfl, hstatement, rfl⟩ := exists_parse hall
  exact ⟨root, statement, hparse, hroot, hstatement⟩

section calls

open Node

variable {k : Kind} {m callee : Node} {ns : List Node} {P : Node → Prop} {L : List Node → Prop}
  {w : List Char}

theorem IsNode.calls_of_ne (h : IsNode k ns m) (hk : k ≠ .call) : m.calls = ns.flatMap calls := by
  rw [calls_eq, h.kind, h.children, if_neg hk, List.nil_append]

theorem IsNode.calls_inRole {role : Role} (h : IsNode k ns m) (hk : k ≠ .call) :
    (m.inRole role).calls = ns.flatMap calls := by
  rw [Node.calls_inRole (by rwa [h.kind]), h.calls_of_ne hk]

theorem IsNode.calls_of_call (h : IsNode .call ns m) : m.calls = m :: ns.flatMap calls := by
  rw [calls_eq, h.kind, h.children, if_pos rfl, List.singleton_append]

theorem IsIdentifier.calls_eq (h : IsIdentifier w m) : m.calls = [] :=
  h.node.calls_of_ne (by split <;> decide)

theorem IsString.calls_eq (h : IsString raw m) : m.calls = [] := h.node.calls_of_ne (by decide)

theorem IsStrings.calls_eq (h : IsStrings raws m) : m.calls = [] := by
  obtain ⟨ns, hm, hns⟩ := h
  rw [hm.calls_of_ne (by decide)]
  clear hm
  induction hns with
  | nil => rfl
  | cons h _ ih => rw [List.flatMap_cons, h.calls_eq, ih, List.append_nil]

theorem IsCall.calls_eq (h : IsCall callee L m) (hcallee : callee.calls = []) :
    ∃ ns, L ns ∧ m.calls = m :: ns.flatMap calls := by
  obtain ⟨args, ns, hargs, hL, hm⟩ := h
  refine ⟨ns, hL, ?_⟩
  rw [hm.calls_of_call, List.flatMap_cons, List.flatMap_singleton, calls_inRole_eq_nil hcallee,
    hargs.calls_inRole (by decide), List.nil_append]

theorem IsRun.calls_eq (h : IsRun runner raws m) : m.calls = [m] := by
  obtain ⟨callee, hcallee, hcall⟩ := h
  obtain ⟨_, ⟨tokens, htokens, rfl⟩, hcalls⟩ := hcall.calls_eq hcallee.calls_eq
  rw [hcalls, List.flatMap_singleton, htokens.calls_eq]

theorem IsMember.calls_eq (h : IsMember callee w m) (hcallee : callee.calls = []) :
    m.calls = [] := by
  obtain ⟨p, hp, -, hm⟩ := h
  rw [hm.calls_of_ne (by decide), List.flatMap_cons, List.flatMap_singleton,
    calls_inRole_eq_nil hcallee, hp.calls_inRole (by decide)]
  rfl

theorem IsSuccess.calls_eq (h : IsSuccess m) : m.calls = [m] := by
  obtain ⟨object, callee, hobject, hcallee, hcall⟩ := h
  obtain ⟨_, rfl, hcalls⟩ := hcall.calls_eq (hcallee.calls_eq hobject.calls_eq)
  exact hcalls

theorem IsConstant.calls_eq (h : IsConstant w (IsAwait P) m) :
    ∃ run, P run ∧ m.calls = run.calls := by
  obtain ⟨d, ⟨target, value, htarget, ⟨run, hrun, hvalue⟩, hd⟩, hm⟩ := h
  refine ⟨run, hrun, ?_⟩
  rw [hm.calls_of_ne (by decide), List.flatMap_singleton, hd.calls_of_ne (by decide),
    List.flatMap_cons, List.flatMap_singleton, calls_inRole_eq_nil htarget.calls_eq,
    hvalue.calls_inRole (by decide), List.flatMap_singleton, List.nil_append]

theorem IsTestBody.calls_eq {role : Role} (h : IsTestBody runner raws m) : ∃ run success,
    IsRun runner raws run ∧ IsSuccess success ∧ (m.inRole role).calls = [run, success] := by
  obtain ⟨_, hm, constant, statement, hconstant, ⟨success, hsuccess, hstatement⟩, rfl⟩ := h
  obtain ⟨run, hrun, hcalls⟩ := hconstant.calls_eq
  refine ⟨run, success, hrun, hsuccess, ?_⟩
  rw [hm.calls_inRole (by decide), List.flatMap_cons, List.flatMap_singleton, hcalls, hrun.calls_eq,
    hstatement.calls_of_ne (by decide), List.flatMap_singleton, hsuccess.calls_eq]
  rfl

theorem IsTest.calls_eq (h : IsTest title runner raws m) :
    ∃ run success, IsRun runner raws run ∧ IsSuccess success ∧ m.calls = [m, run, success] := by
  obtain ⟨callee, hcallee, hcall⟩ := h
  obtain ⟨_, ⟨name, function, hname, hfunction, rfl⟩, hcalls⟩ := hcall.calls_eq hcallee.calls_eq
  obtain ⟨ps, body, hps, hbody, hnode⟩ := hfunction
  obtain ⟨run, success, hrun, hsuccess, hbodyCalls⟩ := hbody.calls_eq
  refine ⟨run, success, hrun, hsuccess, ?_⟩
  rw [hcalls, List.flatMap_cons, List.flatMap_singleton, hname.calls_eq,
    hnode.calls_of_ne (by decide), List.flatMap_cons, List.flatMap_singleton,
    hps.calls_of_ne (by decide), hbodyCalls]
  rfl

theorem IsCall.part_callee (h : IsCall callee L m) :
    m.part .callee = some (callee.inRole .callee) := by
  obtain ⟨args, ns, hargs, hL, hm⟩ := h
  rw [part, hm.children, List.find?_cons]
  rfl

theorem IsCall.arguments_eq (h : IsCall callee L m) :
    ∃ ns, L ns ∧ m.arguments = ns.filter (·.kind != .comment) := by
  obtain ⟨args, ns, hargs, hL, hm⟩ := h
  have hpart : m.part .arguments = some (args.inRole .arguments) := by
    rw [part, hm.children]
    rfl
  refine ⟨ns, hL, ?_⟩
  rw [Node.arguments, hpart, Option.map_some, Option.getD_some, parts, inRole, hargs.children]

theorem IsNamedCall.calleeName_eq (h : IsNamedCall w L m) :
    m.calleeName = if String.ofList w = "undefined" then none else some (String.ofList w) := by
  obtain ⟨callee, hcallee, hcall⟩ := h
  have hkind := hcallee.node.kind
  have htransparent : isTransparent (callee.inRole .callee).kind = false := by
    rw [inRole, hkind]
    split <;> rfl
  rw [calleeName, hcall.part_callee, Option.map_some, unwrap_eq_self htransparent]
  rw [Option.bind_eq_bind, Option.bind_some, inRole, hkind, hcallee.text]
  by_cases hundefined : String.ofList w = "undefined"
  · rw [if_pos hundefined, if_pos hundefined]
  · rw [if_neg hundefined, if_neg hundefined]

theorem IsSuccess.calleeName_eq (h : IsSuccess m) : m.calleeName = some "expectSuccess" := by
  obtain ⟨object, callee, hobject, ⟨p, hp, htext, hcallee⟩, hcall⟩ := h
  have htransparent : isTransparent (callee.inRole .callee).kind = false := by
    rw [inRole, hcallee.kind]
    rfl
  have hpart : (callee.inRole .callee).part .property = some (p.inRole .property) := by
    rw [part, inRole, hcallee.children]
    rfl
  rw [calleeName, hcall.part_callee, Option.map_some, unwrap_eq_self htransparent]
  rw [Option.bind_eq_bind, Option.bind_some, hpart, inRole, hcallee.kind]
  dsimp only
  rw [Option.map_some, inRole, htext]
  rfl

end calls

end Parser

end CommandCoverage.Script
