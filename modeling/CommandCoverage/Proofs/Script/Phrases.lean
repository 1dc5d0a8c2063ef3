import CommandCoverage.Proofs.Script.Expressions
import Mathlib.Data.List.Forall2

namespace CommandCoverage.Script.Parser

variable {g : Grammar} {b b' r s t w raw : List Char} {ss : List Symbol}
  {start : Cursor} {left : Node} {P : Node → Prop}

section closers

def Closes (t : List Char) : Prop := t.head? = some ')' ∨ t.head? = some '\x7d'

theorem Closes.settled (h : Closes t) : Settled t := by
  rcases h with h | h
  · exact settled_of_head h (by decide)
  · exact settled_of_head h (by decide)

theorem Closes.differs (h : Closes t) {o : String} (ho : o.toList ≠ [])
    (hr : o.toList.head? ≠ some ')' ∧ o.toList.head? ≠ some '\x7d') : Differs t o := by
  rcases h with h | h
  · exact differs_of_head h ho hr.1
  · exact differs_of_head h ho hr.2

theorem Closes.beginsWord (h : Closes t) : beginsWord t = false := by
  rcases h with h | h
  · exact beginsWord_of_head h (by decide)
  · exact beginsWord_of_head h (by decide)

theorem Closes.refuses_updated (h : Closes t) : Refuses (updated g) t := by
  have hupcoming : Reads upcoming [] t (· = t) :=
    reads_upcoming (b := []) (s := []) blank_nil h.settled
  have hword : Refuses (wordExpression g) t := by
    have hword : Refuses word t := refuses_word (b := []) blank_nil h.settled h.beginsWord
    exact hword.ahead.seq.bind
  have hprimary : Refuses (primary g) t := by
    refine .after (s := []) hupcoming fun a ha ↦ ?_
    rw [ha]
    rcases h with hhead | hhead
    · rw [hhead]
      exact hword
    · rw [hhead]
      exact hword
  have hnew : Refuses (construction g) t :=
    refuses_construction (b := []) blank_nil h.settled (h.differs (by decide) (by decide))
  have hchain : Refuses (memberChain g) t :=
    .after (s := []) (reads_place (b := []) blank_nil h.settled) fun _ _ ↦
      (hnew.orElse hprimary).bind
  exact .after (s := []) (reads_place (b := []) blank_nil h.settled) fun _ _ ↦ hchain.bind

theorem Closes.refuses_unary (h : Closes t) : Refuses (unary g) t := by
  have hupcoming : Reads upcoming [] t (· = t) :=
    reads_upcoming (b := []) (s := []) blank_nil h.settled
  refine .after (s := []) hupcoming fun a ha ↦ ?_
  have hupdated : Refuses (updated g) t := h.refuses_updated
  rw [ha]
  rcases h with hhead | hhead
  · rw [hhead]
    exact hupdated
  · rw [hhead]
    exact hupdated

theorem Closes.refuses_binary (h : Closes t) (levels : List (List String)) :
    Refuses (binary g true levels) t := by
  induction levels with
  | nil =>
    rw [binary]
    exact h.refuses_unary
  | cons os levels ih =>
    rw [binary]
    exact .after (s := []) (reads_place (b := []) blank_nil h.settled) fun _ _ ↦ ih.bind

theorem Closes.refuses_fullExpression (hg : g.types = false) (hb : Blank b) (h : Closes t) :
    Refuses (fullExpression g true) (b ++ t) := by
  have hplace (b : List Char) (hb : Blank b) :
      Reads place b t fun start ↦ start.Fits ∧ start.rest = t := reads_place hb h.settled
  have hassignment : Refuses (assignment g true) (b ++ t) :=
    .after (hplace b hb) fun _ _ ↦ .bind (.after (s := []) (hplace [] blank_nil) fun _ _ ↦
      (h.refuses_binary operators).bind)
  have hidentifier : Refuses identifier t :=
    refuses_identifier (b := []) blank_nil h.settled h.beginsWord
  have harrow : Refuses (arrow g true) (b ++ t) := by
    refine refuses_arrow hb h.settled ?_ ?_
    · exact refuses_keyword (b := []) blank_nil h.settled (h.differs (by decide) (by decide))
    · exact refuses_arrowHead hg h.settled hidentifier (h.differs (by decide) (by decide))
  have hupcoming : Reads upcoming [] (b ++ t) (· = t) := by
    have hread := reads_upcoming (s := []) hb h.settled
    rwa [List.append_nil] at hread
  refine .after (s := []) hupcoming fun a ha ↦ ?_
  rw [ha]
  rcases h with hhead | hhead
  · rw [hhead]
    exact harrow.orElse hassignment
  · rw [hhead]
    exact harrow.orElse hassignment

end closers

section strings

def quoted (raw : List Char) : List Char := '\'' :: (raw ++ ['\''])

structure IsString (raw : List Char) (n : Node) : Prop where
  node : IsNode .string [] n
  text : n.text = String.ofList (quoted raw)

theorem settled_quoted (raw r : List Char) : Settled (quoted raw ++ r) := rfl

theorem reads_quoted (h : Writes '\'' raw ss) (hb : Blank b) (r : List Char) :
    Reads string (b ++ quoted raw) r (IsString raw) :=
  (reads_string hb (.inl rfl) h r).mono fun _ hn ↦ ⟨hn.2, hn.1⟩

theorem Quiet.reads_fullExpression {ch : Char} (hg : g.types = false) (hb : Blank b) (hq : Quiet r)
    (hhead : (s ++ r).head? = some ch) (hch : ch = '\'' ∨ ch = '[')
    (hp : Reads (primary g) s r P) : Reads (fullExpression g true) (b ++ s) r P := by
  have hs : Settled (s ++ r) := settled_of_head hhead (by rcases hch with rfl | rfl <;> decide)
  have hbegins : beginsWord (s ++ r) = false :=
    beginsWord_of_head hhead (by rcases hch with rfl | rfl <;> decide)
  have hdiffers {o : String} (ho : o.toList ≠ [])
      (hr : o.toList.head? ≠ some '\'' ∧ o.toList.head? ≠ some '[') : Differs (s ++ r) o := by
    rcases hch with rfl | rfl
    · exact differs_of_head hhead ho hr.1
    · exact differs_of_head hhead ho hr.2
  have hnew : Refuses (construction g) (s ++ r) :=
    refuses_construction (b := []) blank_nil hs (hdiffers (by decide) (by decide))
  have hunary : Reads (unary g) s r P := by
    refine reads_unary (b := []) blank_nil hs hhead (by rcases hch with rfl | rfl <;> decide) ?_
    have hread := hq.reads_updated (b := []) (s := s) (t := []) blank_nil hs hnew hp
      fun start x hx ↦ (hq.refuses_suffix hg).grows hx
    rwa [List.append_nil] at hread
  refine Parser.reads_fullExpression hb hs hhead (by rcases hch with rfl | rfl <;> decide) ?_
    (hq.reads_assignment hg hb hs hunary)
  rw [List.append_assoc]
  refine refuses_arrow hb hs ?_ ?_
  · exact Parser.refuses_keyword (b := []) blank_nil hs (hdiffers (by decide) (by decide))
  · exact refuses_arrowHead hg hs (refuses_identifier (b := []) blank_nil hs hbegins)
      (hdiffers (by decide) (by decide))

theorem reads_fullExpression_string (hg : g.types = false) (hb : Blank b) (h : Writes '\'' raw ss)
    (hq : Quiet r) : Reads (fullExpression g true) (b ++ quoted raw) r (IsString raw) :=
  hq.reads_fullExpression hg hb rfl (.inl rfl)
    (reads_primary_string rfl (reads_quoted (b := []) h blank_nil r))

end strings

section lists

def listed (items : List (List Char × (Node → Prop))) : List Char := items.flatMap (',' :: ·.1)

@[simp] theorem listed_nil : listed [] = [] := rfl

@[simp] theorem listed_cons (x : List Char × (Node → Prop))
    (items : List (List Char × (Node → Prop))) :
    listed (x :: items) = ',' :: x.1 ++ listed items := rfl

variable {p : Parser Node}

theorem reads_comma (r : List Char) : Reads (sign ",") [','] r fun _ ↦ True :=
  reads_sign (b := []) (s := ",") blank_nil rfl rfl

/-- Items are read one after the other if each is read before a comma and before the end. -/
theorem repeats_listed {items : List (List Char × (Node → Prop))} (hr : Settled r)
    (hd : Differs r ",") (hp : ∀ x ∈ items, ∀ t, t.head? = some ',' ∨ t = r → Reads p x.1 t x.2) :
    Repeats (do sign ","; optional p) (listed items) r fun os ↦
      List.Forall₂ (fun x o ↦ ∃ n, o = some n ∧ x.2 n) items os := by
  induction items with
  | nil =>
    refine (refuses_sign (b := []) blank_nil hr hd).bind.repeats.mono ?_
    rintro _ rfl
    exact .nil
  | cons x items ih =>
    have hrest := ih fun y hy ↦ hp y (List.mem_cons_of_mem _ hy)
    have hnext : (listed items ++ r).head? = some ',' ∨ listed items ++ r = r := by
      cases items with
      | nil => exact .inr rfl
      | cons => exact .inl rfl
    have hitem : Reads (do sign ","; optional p) (',' :: x.1) (listed items ++ r)
        fun o ↦ ∃ n, o = some n ∧ x.2 n :=
      (reads_comma _).bind fun _ _ ↦ (hp x List.mem_cons_self _ hnext).optional
    refine (hitem.repeats (List.cons_ne_nil _ _) hrest).mono ?_
    rintro _ ⟨o, os, rfl, ho, hos⟩
    exact .cons ho hos

theorem filterMap_id_of_forall₂ {items : List (List Char × (Node → Prop))} {os : List (Option Node)}
    (h : List.Forall₂ (fun x o ↦ ∃ n, o = some n ∧ x.2 n) items os) :
    List.Forall₂ (fun x n ↦ x.2 n) items (os.filterMap id) := by
  induction h with
  | nil => exact .nil
  | cons h _ ih =>
    obtain ⟨n, rfl, hn⟩ := h
    exact .cons hn ih

theorem reads_listWithHoles {first : List Char × (Node → Prop)}
    {items : List (List Char × (Node → Prop))} (hr : Settled r) (hd : Differs r ",")
    (hp : ∀ x ∈ first :: items, ∀ t, t.head? = some ',' ∨ t = r → Reads p x.1 t x.2) :
    Reads (listWithHoles p) (first.1 ++ listed items) r
      (List.Forall₂ (fun x n ↦ x.2 n) (first :: items)) := by
  have hnext : (listed items ++ r).head? = some ',' ∨ listed items ++ r = r := by
    cases items with
    | nil => exact .inr rfl
    | cons => exact .inl rfl
  have hrest := repeats_listed hr hd fun x hx ↦ hp x (List.mem_cons_of_mem _ hx)
  refine (hp first List.mem_cons_self _ hnext).optional.bind fun o ho ↦ ?_
  refine hrest.reads.returns fun os hos ↦ ?_
  exact filterMap_id_of_forall₂ (.cons ho hos)

theorem reads_listWithHoles_nil (hr : Settled r) (hd : Differs r ",") (hp : Refuses p r) :
    Reads (listWithHoles p) [] r (· = []) := by
  refine hp.optional.nil_then fun o ho ↦ ?_
  refine (refuses_sign (b := []) blank_nil hr hd).bind.many.returns fun os hos ↦ ?_
  rw [ho, hos]
  rfl

theorem quiet_of_head {c : Char} (h : t.head? = some c) (hch : c ∈ [',', ']', ')', '\x7d']) :
    Quiet t := by
  have hc : (!isBlank c && c != '/') = true ∧ c ∉ operatorStarts := by
    simp only [List.mem_cons, List.not_mem_nil, or_false] at hch
    rcases hch with rfl | rfl | rfl | rfl <;> decide
  refine ⟨[], t, rfl, blank_nil, ?_, ?_⟩
  · exact settled_of_head h hc.1
  · intro x hx
    rw [h] at hx
    exact Option.some_inj.1 hx ▸ hc.2

theorem refuses_spread (hb : Blank b) (ht : Settled t) (hd : Differs t "...") :
    Refuses (spread g) (b ++ t) :=
  .node hb ht (refuses_sign (b := []) blank_nil ht hd).bind

variable {o c : String} {k : Kind}

theorem reads_enclosed {a : List Char × (Node → Prop)}
    {l : List (List Char × (Node → Prop))}
    (hopening : ∀ t, Reads (sign o) o.toList t fun _ ↦ True)
    (hclosing : Reads (sign c) c.toList r fun _ ↦ True)
    (hs : ∀ t, Settled (o.toList ++ t)) (hr : Settled (c.toList ++ r))
    (hd : Differs (c.toList ++ r) ",") (hq : Quiet (c.toList ++ r))
    (hp : ∀ x ∈ a :: l, ∀ t, Quiet t → Reads (spread g <|> expression g) x.1 t x.2) :
    Reads (node k (do
      sign o
      let ns ← listWithHoles (spread g <|> expression g)
      sign c
      return ns)) (o.toList ++ (a.1 ++ listed l ++ c.toList)) r fun n ↦
        ∃ ns, IsNode k ns n ∧ List.Forall₂ (fun x n ↦ x.2 n) (a :: l) ns := by
  have hparts : Reads (do
      sign o
      let ns ← listWithHoles (spread g <|> expression g)
      sign c
      return ns) (o.toList ++ (a.1 ++ listed l ++ c.toList)) r
        (List.Forall₂ (fun x n ↦ x.2 n) (a :: l)) := by
    refine (hopening _).bind fun _ _ ↦ ?_
    refine (reads_listWithHoles hr hd fun x hx t ht ↦ hp x hx t ?_).bind fun ns hns ↦
      hclosing.returns fun _ _ ↦ hns
    rcases ht with ht | rfl
    · exact quiet_of_head ht (by decide)
    · exact hq
  refine (hparts.node (b := []) blank_nil ?_).mono fun n hn ↦ hn.2
  rw [List.append_assoc]
  exact hs _

def arrayText (raw : List Char) (raws : List (List Char)) : List Char :=
  '[' :: (quoted raw ++ listed (raws.map fun x ↦ (' ' :: quoted x, IsString x)) ++ [']'])

def IsStrings (raws : List (List Char)) (n : Node) : Prop :=
  ∃ ns, IsNode .array ns n ∧ List.Forall₂ IsString raws ns

def ReadsStrings (g : Grammar) : Prop :=
  ∀ {b raw ss r}, Blank b → Writes '\'' raw ss → Quiet r →
    Reads (g.parse (.expression true)) (b ++ quoted raw) r (IsString raw)

theorem reads_item (hb : Blank b) (ht : Settled (s ++ r)) (hd : Differs (s ++ r) "...")
    (h : Reads (g.parse (.expression true)) (b ++ s) r P) :
    Reads (spread g <|> expression g) (b ++ s) r P := by
  refine .orElse_right ?_ h
  rw [List.append_assoc]
  exact refuses_spread hb ht hd

theorem reads_element (hg : ReadsStrings g) (hb : Blank b) (h : ∃ ss, Writes '\'' raw ss)
    (hq : Quiet r) :
    Reads (spread g <|> expression g) (b ++ quoted raw) r (IsString raw) := by
  obtain ⟨ss, h⟩ := h
  exact reads_item hb (settled_quoted raw r) ⟨by simp [quoted], by decide⟩ (hg hb h hq)

theorem forall₂_map_strings {raws : List (List Char)} {ns : List Node}
    (h : List.Forall₂ (fun (x : List Char × (Node → Prop)) n ↦ x.2 n)
      (raws.map fun x ↦ (' ' :: quoted x, IsString x)) ns) : List.Forall₂ IsString raws ns := by
  rwa [List.forall₂_map_left_iff] at h

theorem reads_array {raws : List (List Char)} (hg : ReadsStrings g)
    (h : ∀ x ∈ raw :: raws, ∃ ss, Writes '\'' x ss) (r : List Char) :
    Reads (array g) (arrayText raw raws) r (IsStrings (raw :: raws)) := by
  have hclosing : Reads (sign "]") "]".toList r fun _ ↦ True :=
    reads_sign (b := []) (s := "]") blank_nil rfl rfl
  have hread := reads_enclosed (g := g) (k := .array) (o := "[") (c := "]")
    (a := (quoted raw, IsString raw))
    (l := raws.map fun x ↦ (' ' :: quoted x, IsString x))
    (fun t ↦ reads_sign (b := []) (s := "[") blank_nil rfl rfl) hclosing (fun _ ↦ rfl) rfl
    ⟨by simp, by decide⟩ (quiet_of_head (c := ']') rfl (by decide)) ?_
  · refine hread.mono ?_
    rintro n ⟨_, hn, hns⟩
    cases hns with
    | cons hfirst hns => exact ⟨_, hn, .cons hfirst (forall₂_map_strings hns)⟩
  · intro x hx t hq
    rcases List.mem_cons.1 hx with rfl | hx
    · exact reads_element (b := []) hg blank_nil (h raw List.mem_cons_self) hq
    · obtain ⟨y, hy, rfl⟩ := List.mem_map.1 hx
      exact reads_element (b := [' ']) hg (by decide) (h y (List.mem_cons_of_mem _ hy)) hq

theorem Quiet.reads_fullExpression_array {raws : List (List Char)} (hg : g.types = false)
    (hstrings : ReadsStrings g) (hb : Blank b) (hq : Quiet r)
    (h : ∀ x ∈ raw :: raws, ∃ ss, Writes '\'' x ss) :
    Reads (fullExpression g true) (b ++ arrayText raw raws) r (IsStrings (raw :: raws)) :=
  hq.reads_fullExpression hg hb rfl (.inr rfl) (reads_primary_array rfl (reads_array hstrings h r))

end lists

section calls

def IsCall (callee : Node) (P : List Node → Prop) (n : Node) : Prop :=
  ∃ args ns, IsNode .arguments ns args ∧ P ns ∧
    IsNode .call [callee.inRole .callee, args.inRole .arguments] n

def ReadsArguments (g : Grammar) (s r : List Char) (P : List Node → Prop) : Prop :=
  Reads (arguments g) s r fun n ↦ ∃ ns, IsNode .arguments ns n ∧ P ns

variable {L : List Node → Prop}

theorem reads_arguments {a : List Char × (Node → Prop)}
    {l : List (List Char × (Node → Prop))}
    (hp : ∀ x ∈ a :: l, ∀ t, Quiet t → Reads (spread g <|> expression g) x.1 t x.2) :
    ReadsArguments g ('(' :: (a.1 ++ listed l ++ [')'])) r
      (List.Forall₂ (fun x n ↦ x.2 n) (a :: l)) :=
  reads_enclosed (o := "(") (c := ")")
    (fun _ ↦ reads_sign (b := []) (s := "(") blank_nil rfl rfl)
    (reads_sign (b := []) (s := ")") blank_nil rfl rfl) (fun _ ↦ rfl) rfl ⟨by simp, by decide⟩
    (quiet_of_head (c := ')') rfl (by decide)) hp

theorem reads_noArguments (h : Refuses (g.parse (.expression true)) (')' :: r)) :
    ReadsArguments g ['(', ')'] r (· = []) := by
  have hs : Settled (')' :: r) := rfl
  have hd {o : String} (ho : o.toList ≠ []) (hne : o.toList.head? ≠ some ')') :
      Differs (')' :: r) o := ⟨fun he ↦ hne he.symm, ho⟩
  have hspread : Refuses (spread g) (')' :: r) :=
    refuses_spread (b := []) blank_nil hs (hd (by decide) (by decide))
  have hitems : Reads (listWithHoles (spread g <|> expression g)) [] (')' :: r) (· = []) :=
    reads_listWithHoles_nil hs (hd (by decide) (by decide)) (hspread.orElse h)
  have hparts : Reads (do
      sign "("
      let ns ← listWithHoles (spread g <|> expression g)
      sign ")"
      return ns) ['(', ')'] r (· = []) :=
    (reads_sign (b := []) (s := "(") blank_nil rfl rfl).bind fun _ _ ↦ hitems.nil_then fun ns hns ↦
      (reads_sign (b := []) (s := ")") blank_nil rfl rfl).returns fun _ _ ↦ hns
  have htext : Settled (['(', ')'] ++ r) := rfl
  exact (hparts.node (b := []) blank_nil htext).mono fun n hn ↦ hn.2

theorem refuses_memberSuffix (hg : g.types = false) (ht : Settled t) (hdot : Differs t ".")
    (hbracket : Differs t "[") : Refuses (memberSuffix g start left) t :=
  .orElse (.bind (.bind (refuses_sign (b := []) blank_nil ht hdot)))
    (.orElse (.bind (.bind (refuses_sign (b := []) blank_nil ht hbracket)))
      (.bind (.bind (refuses_guard hg))))

theorem reads_callSuffix (hg : g.types = false) (hhead : (s ++ r).head? = some '(')
    (h : ReadsArguments g s r L) :
    Reads (memberSuffix g start left <|> callSuffix g start left) s r (IsCall left L) := by
  have hs : Settled (s ++ r) := settled_of_head hhead (by decide)
  have hmember : Refuses (memberSuffix g start left) (s ++ r) :=
    refuses_memberSuffix hg hs (differs_of_head hhead (by decide) (by decide))
      (differs_of_head hhead (by decide) (by decide))
  have hargs : Reads (callArguments g) s r fun n ↦
      ∃ args ns, IsNode .arguments ns args ∧ L ns ∧ n = args.inRole .arguments :=
    (Reads.orElse_left h).returns fun args ⟨ns, hnode, hL⟩ ↦ ⟨args, ns, hnode, hL, rfl⟩
  have hplain : Reads (do return [left.inRole .callee, ← callArguments g]) s r fun ns ↦
      ∃ args ns', IsNode .arguments ns' args ∧ L ns' ∧
        ns = [left.inRole .callee, args.inRole .arguments] := by
    refine hargs.returns ?_
    rintro _ ⟨args, ns, hnode, hL, rfl⟩
    exact ⟨args, ns, hnode, hL, rfl⟩
  refine .orElse_right hmember (.orElse_left ((hplain.nodeFrom start).mono ?_))
  rintro n ⟨_, hn, args, ns, hnode, hL, rfl⟩
  exact ⟨args, ns, hnode, hL, hn⟩

def IsMember (object : Node) (property : List Char) (n : Node) : Prop :=
  ∃ p, IsNode .propertyName [] p ∧ p.text = String.ofList property ∧
    IsNode .member [object.inRole .object, p.inRole .property] n

theorem reads_memberSuffix (hw : IsWord w) (hr : endsWord r = true)
    (hdigits : continues "." ('.' :: (w ++ r)) = false) :
    Reads (memberSuffix g start left <|> callSuffix g start left) ('.' :: w) r
      (IsMember left w) := by
  have hdot : Reads (sign ".") ['.'] (w ++ r) fun _ ↦ True :=
    reads_sign (b := []) (s := ".") blank_nil rfl hdigits
  have hsign : Differs (w ++ r) "#" := hw.differs (x := '#') rfl (by decide) r
  have hhash : Refuses (sign "#") (w ++ r) :=
    refuses_sign (b := []) blank_nil (hw.settled r) hsign
  have hprivate : Refuses privateName (w ++ r) :=
    .leaf (b := []) blank_nil (hw.settled r) hhash.bind
  have hname : Reads propertyName w r fun p ↦ p.text = String.ofList w ∧
      IsNode .propertyName [] p :=
    .orElse_right hprivate
      ((reads_word (b := []) blank_nil hw hr).leaf (b := []) blank_nil (hw.settled r))
  have hparts : Reads (do
      sign "."
      return [left.inRole .object, (← propertyName).inRole .property]) ('.' :: w) r fun ns ↦
        ∃ p, IsNode .propertyName [] p ∧ p.text = String.ofList w ∧
          ns = [left.inRole .object, p.inRole .property] :=
    hdot.bind fun _ _ ↦ hname.returns fun p hp ↦ ⟨p, hp.2, hp.1, rfl⟩
  refine .orElse_left (.orElse_left ((hparts.nodeFrom start).mono ?_))
  rintro n ⟨_, hn, p, hp, htext, rfl⟩
  exact ⟨p, hp, htext, hn⟩

theorem not_operator {a : String} (hn : reserved.contains a = false) :
    ["delete", "typeof", "void"].contains a = false ∧ ["await"].contains a = false ∧ a ≠ "new" := by
  have hne (x : String) (hx : reserved.contains x = true) : a ≠ x := by
    rintro rfl
    rw [hn] at hx
    cases hx
  have hdelete := hne "delete" (by decide)
  have htypeof := hne "typeof" (by decide)
  have hvoid := hne "void" (by decide)
  have hawait := hne "await" (by decide)
  exact ⟨by simp [hdelete, htypeof, hvoid], by simp [hawait], hne "new" (by decide)⟩

def Uses (t : List Char) : Prop := t.head? = some '(' ∨ t.head? = some '.'

theorem Uses.settled (h : Uses t) : Settled t := by
  rcases h with h | h
  · exact settled_of_head h (by decide)
  · exact settled_of_head h (by decide)

theorem Uses.endsWord (h : Uses t) : endsWord t = true := by
  rcases h with h | h
  · exact endsWord_of_head h (by decide)
  · exact endsWord_of_head h (by decide)

theorem Uses.differs (h : Uses t) {o : String} (ho : o.toList ≠ [])
    (hr : o.toList.head? ≠ some '(' ∧ o.toList.head? ≠ some '.') : Differs t o := by
  rcases h with h | h
  · exact differs_of_head h ho hr.1
  · exact differs_of_head h ho hr.2

theorem Quiet.reads_unary_word (hq : Quiet r) (hb : Blank b) (hw : IsWord w)
    (hn : reserved.contains (String.ofList w) = false) (hu : Uses (s ++ r))
    (hgrow : ∀ start x, IsIdentifier w x →
      Grows (fun left ↦ memberSuffix g start left <|> callSuffix g start left) x s r P) :
    Reads (unary g) (b ++ (w ++ s)) r P := by
  have hr : Parser.endsWord (s ++ r) = true := hu.endsWord
  have hd : Differs (s ++ r) "function" := hu.differs (by decide) (by decide)
  obtain ⟨hoperator, hawait, hnew⟩ := not_operator hn
  refine Parser.reads_unary_word hb hw hr hoperator hawait ?_
  exact hq.reads_updated hb (hw.settled _) (refuses_construction_of_ne (b := []) blank_nil hw hr hnew)
    (reads_primary_word hw hr hu.settled hd hn) hgrow

theorem Quiet.grows_call (hq : Quiet r) (hg : g.types = false) (hs : s.head? = some '(')
    (h : ReadsArguments g s r L) (start : Cursor) (left : Node) :
    Grows (fun x ↦ memberSuffix g start x <|> callSuffix g start x) left s r (IsCall left L) := by
  have hhead : (s ++ r).head? = some '(' := by
    rw [List.head?_append, hs]
    rfl
  have hne : s ≠ [] := by
    rintro rfl
    cases hs
  rw [← List.append_nil s]
  refine Reads.grows (P := IsCall left L) ?_ hne fun y hy ↦ (hq.refuses_suffix hg).grows hy
  exact reads_callSuffix hg hhead h

def IsNamedCall (w : List Char) (L : List Node → Prop) (n : Node) : Prop :=
  ∃ callee, IsIdentifier w callee ∧ IsCall callee L n

theorem Quiet.reads_unary_call (hq : Quiet r) (hg : g.types = false) (hb : Blank b) (hw : IsWord w)
    (hn : reserved.contains (String.ofList w) = false) (hs : s.head? = some '(')
    (h : ReadsArguments g s r L) : Reads (unary g) (b ++ (w ++ s)) r (IsNamedCall w L) := by
  have hhead : (s ++ r).head? = some '(' := by rw [List.head?_append, hs]; rfl
  refine hq.reads_unary_word hb hw hn (.inl hhead) fun start x hx ↦ ?_
  exact (hq.grows_call hg hs h start x).mono fun y hy ↦ ⟨x, hx, hy⟩

def IsMemberCall (w p : List Char) (L : List Node → Prop) (n : Node) : Prop :=
  ∃ object callee, IsIdentifier w object ∧ IsMember object p callee ∧ IsCall callee L n

theorem Quiet.reads_unary_memberCall {p : List Char} (hq : Quiet r) (hg : g.types = false)
    (hb : Blank b) (hw : IsWord w) (hn : reserved.contains (String.ofList w) = false) (hp : IsWord p)
    (hs : s.head? = some '(') (hdigits : continues "." ('.' :: (p ++ (s ++ r))) = false)
    (h : ReadsArguments g s r L) :
    Reads (unary g) (b ++ (w ++ ('.' :: p ++ s))) r (IsMemberCall w p L) := by
  have hhead : (s ++ r).head? = some '(' := by rw [List.head?_append, hs]; rfl
  have hr : endsWord (s ++ r) = true := endsWord_of_head hhead (by decide)
  refine hq.reads_unary_word hb hw hn (.inr rfl) fun start x hx ↦ ?_
  refine (reads_memberSuffix hp hr hdigits).grows (List.cons_ne_nil _ _) fun y hy ↦ ?_
  exact (hq.grows_call hg hs h start y).mono fun z hz ↦ ⟨x, y, hx, hy, hz⟩

def IsAwait (P : Node → Prop) (n : Node) : Prop := ∃ x, P x ∧ IsNode .await [x] n

theorem isWord_await : IsWord "await".toList := isWord_of_chars (by decide) (by decide)

theorem reads_unary_await (hb : Blank b) (hr : endsWord (s ++ r) = true)
    (h : Reads (g.parse .unary) s r P) :
    Reads (unary g) (b ++ ("await".toList ++ s)) r (IsAwait P) := by
  have hw := isWord_await
  have hs : Settled ("await".toList ++ s ++ r) := rfl
  have hawait : Reads (do let _ ← keywordOf ["await"]; return [← g.parse .unary])
      ("await".toList ++ s) r fun ns ↦ ∃ x, P x ∧ ns = [x] :=
    (reads_keywordOf (b := []) blank_nil hw hr (by decide)).bind fun _ _ ↦
      h.returns fun x hx ↦ ⟨x, hx, rfl⟩
  have hunary : Refuses (node .unary (do
      let _ ← keywordOf ["delete", "typeof", "void"]
      return [← g.parse .unary])) (b ++ ("await".toList ++ s) ++ r) := by
    rw [List.append_assoc, List.append_assoc]
    exact refuses_prefixed hb hw hr (by decide)
  refine (reads_upcoming hb hs).nil_then fun a ha ↦ ?_
  rw [ha]
  refine .orElse_right hunary (.orElse_left ((hawait.node hb hs).mono ?_))
  rintro n ⟨-, _, hn, x, hx, rfl⟩
  exact ⟨x, hx, hn⟩

theorem reads_fullExpression_await (hg : g.types = false) (hb : Blank b) (hq : Quiet r)
    (hr : endsWord (s ++ r) = true) (h : Reads (g.parse .unary) s r P) :
    Reads (fullExpression g true) (b ++ ("await".toList ++ s)) r (IsAwait P) := by
  have hw := isWord_await
  have hs : Settled ("await".toList ++ s ++ r) := rfl
  have hunary : Reads (unary g) ("await".toList ++ s) r (IsAwait P) :=
    reads_unary_await (b := []) blank_nil hr h
  have hd : Differs ("await".toList ++ (s ++ r)) "(" :=
    differs_of_head (c := 'a') rfl (by decide) (by decide)
  refine reads_fullExpression (c := 'a') hb hs rfl (by decide) ?_
    (hq.reads_assignment hg hb hs hunary)
  rw [List.append_assoc, List.append_assoc]
  refine refuses_arrow hb (hw.settled _) ?_ ?_
  · exact refuses_keyword_of_ne (b := []) blank_nil hw hr (by decide)
  · refine refuses_arrowHead hg (hw.settled _) ?_ hd
    exact refuses_identifier_of_reserved (b := []) blank_nil hw hr (by decide)

theorem Quiet.reads_fullExpression_word (hg : g.types = false) (hb : Blank b)
    (hq : Quiet r) (hw : IsWord w) (hn : reserved.contains (String.ofList w) = false)
    (hasync : String.ofList w ≠ "async") (hfirst : w.head? ≠ some '<' ∧ w.head? ≠ some 'y')
    (hu : Uses (s ++ r)) (h : Reads (unary g) (w ++ s) r P) :
    Reads (fullExpression g true) (b ++ (w ++ s)) r P := by
  have hd : Differs (s ++ r) "=>" := hu.differs (by decide) (by decide)
  have hs : Settled (w ++ s ++ r) := by
    rw [List.append_assoc]
    exact hw.settled _
  obtain ⟨x, w', rfl, -, -⟩ := exists_cons_of_beginsWord hw.begins
  refine Parser.reads_fullExpression (c := x) hb hs rfl ?_ ?_ (hq.reads_assignment hg hb hs h)
  · simpa using hfirst
  · rw [List.append_assoc, List.append_assoc]
    exact refuses_arrow_word hb hw hu.endsWord hu.settled hd hn hasync

end calls

section functions

theorem refuses_parameter (ht : t.head? = some ')') (hg : g.types = false) :
    Refuses (parameter g) t := by
  have hc : Closes t := .inl ht
  have hs := hc.settled
  have hsign {o : String} (ho : o.toList ≠ []) (hr : o.toList.head? ≠ some ')') :
      Refuses (sign o) t := refuses_sign (b := []) blank_nil hs (differs_of_head ht ho hr)
  have hdecorators : Reads (many (decorator g)) [] t (· = []) :=
    Refuses.many (.node (b := []) blank_nil hs (hsign (by decide) (by decide)).bind)
  have hmodifiers : Reads (many do
      guard g.types
      let w ← keywordOf accessWords
      guard ((← upcoming).head?.any fun c ↦ isNameStart c || c == '[' || c == '\x7b')
      return w) [] t (· = []) :=
    Refuses.many (refuses_guard hg).bind
  have hpattern : Refuses (restPattern g false) t :=
    .node (b := []) blank_nil hs (hsign (by decide) (by decide)).bind
  have hbinding : Refuses (binding g) t :=
    .orElse (.node (b := []) blank_nil hs (hsign (by decide) (by decide)).bind)
      (.orElse (.node (b := []) blank_nil hs (hsign (by decide) (by decide)).bind)
        (refuses_identifier (b := []) blank_nil hs hc.beginsWord))
  have hthis : Refuses (leaf .this (keyword "this")) t :=
    .leaf (b := []) blank_nil hs
      (refuses_keyword (b := []) blank_nil hs (differs_of_head ht (by decide) (by decide)))
  exact .node (b := []) blank_nil hs (.after (s := []) hdecorators fun _ _ ↦
    .after (s := []) hmodifiers fun _ _ ↦ .bind (.orElse hpattern (.orElse hbinding hthis)))

theorem reads_signature (hg : g.types = false) (hb : Blank b) (r : List Char) :
    Reads (signature g) (b ++ ['(', ')']) r fun ns ↦
      ∃ ps, IsNode .parameters [] ps ∧ ns = [ps] := by
  have hgenerics : Refuses (typeParameters g) (b ++ ('(' :: ')' :: r)) :=
    Refuses.node hb rfl (refuses_guard hg).bind
  have hlist : Reads (listOf (parameter g)) [] (')' :: r) (· = []) :=
    .orElse_right (refuses_parameter rfl hg).bind (.pure rfl)
  have hparts : Reads (do
      sign "("
      let ps ← listOf (parameter g)
      sign ")"
      return ps) ['(', ')'] r (· = []) :=
    (reads_sign (b := []) (s := "(") blank_nil rfl rfl).bind fun _ _ ↦ hlist.nil_then fun ps hps ↦
      (reads_sign (b := []) (s := ")") blank_nil rfl rfl).returns fun _ _ ↦ hps
  have hs : Settled (['(', ')'] ++ r) := rfl
  have hparameters : Reads (parameters g) (b ++ ['(', ')']) r (IsNode .parameters []) := by
    refine (hparts.node hb hs).mono ?_
    rintro n ⟨-, _, hn, rfl⟩
    exact hn
  have hresult : Reads ((returnType g).orElse []) [] r (· = []) :=
    .orElse_right (refuses_guard hg).bind (.pure rfl)
  have hnone : Reads (optional (typeParameters g)) [] (b ++ ['(', ')'] ++ r) (· = none) := by
    rw [List.append_assoc]
    exact hgenerics.optional
  refine hnone.nil_then fun generics hgenerics ↦ hparameters.then_nil fun ps hps ↦
    hresult.returns fun result hresult ↦ ⟨ps, hps, ?_⟩
  rw [hgenerics, hresult]
  rfl

def IsArrow (P : Node → Prop) (n : Node) : Prop :=
  ∃ ps body, IsNode .parameters [] ps ∧ P body ∧ IsNode .arrow [ps, body.inRole .body] n

def asyncArrow (s : List Char) : List Char :=
  "async".toList ++ ([' ', '(', ')'] ++ ([' ', '=', '>'] ++ s))

theorem isWord_async : IsWord "async".toList := isWord_of_chars (by decide) (by decide)

theorem reads_arrowHead (hg : g.types = false) (r : List Char) :
    Reads (arrowHead g) ([' ', '(', ')'] ++ [' ', '=', '>']) r fun ns ↦
      ∃ ps, IsNode .parameters [] ps ∧ ns = [ps] := by
  have hname : Refuses (do return [← identifier] : Parser (List Node))
      ([' ', '(', ')'] ++ ([' ', '=', '>'] ++ r)) :=
    (refuses_identifier (b := [' ']) (t := '(' :: ')' :: ([' ', '=', '>'] ++ r)) (by decide) rfl
      rfl).bind
  have hsignature : Reads (signature g) [' ', '(', ')'] ([' ', '=', '>'] ++ r) fun ns ↦
      ∃ ps, IsNode .parameters [] ps ∧ ns = [ps] :=
    reads_signature (b := [' ']) hg (by decide) _
  have hsign : Reads (sign "=>") [' ', '=', '>'] r fun _ ↦ True :=
    reads_sign (b := [' ']) (s := "=>") (by decide) rfl rfl
  exact (Reads.orElse_right hname hsignature).bind fun ns hns ↦ hsign.returns fun _ _ ↦ hns

theorem reads_asyncHead (hg : g.types = false) (r : List Char) :
    Reads (keyword "async" *> sameLine *> arrowHead g)
      ("async".toList ++ ([' ', '(', ')'] ++ [' ', '=', '>'])) r fun ns ↦
        ∃ ps, IsNode .parameters [] ps ∧ ns = [ps] := by
  refine Reads.seq (P := fun _ ↦ True) ?_ (reads_arrowHead hg _)
  refine (reads_keyword (b := []) blank_nil isWord_async rfl).then_nil fun _ _ ↦ ?_
  exact reads_sameLine (b := [' ']) (by decide) rfl rfl

theorem reads_arrowFunction (hg : g.types = false) (hbrace : s.head? = some '\x7b')
    (h : Reads (block g) (' ' :: s) r P) :
    Reads (arrowFunction g true) (asyncArrow (' ' :: s)) r (IsArrow P) := by
  have hhead : (s ++ r).head? = some '\x7b' := by
    rw [List.head?_append, hbrace]
    rfl
  have hsettled : Settled (s ++ r) := settled_of_head hhead (by decide)
  have hupcoming : Reads upcoming [] (' ' :: s ++ r) (· = s ++ r) :=
    reads_upcoming (b := [' ']) (by decide) hsettled
  have hparts : Reads (do
      let head ← (keyword "async" *> sameLine *> arrowHead g) <|> arrowHead g
      let body ← if (← upcoming).head? == some '\x7b' then block g else g.parse (.expression true)
      return head ++ [body.inRole .body]) (asyncArrow (' ' :: s)) r fun ns ↦
        ∃ ps body, IsNode .parameters [] ps ∧ P body ∧ ns = [ps, body.inRole .body] := by
    refine Reads.cast ((Reads.orElse_left (reads_asyncHead hg _)).bind fun head hps ↦
      hupcoming.nil_then fun a ha ↦ ?_) rfl
    obtain ⟨ps, hps, rfl⟩ := hps
    rw [ha, hhead, if_pos (by rfl)]
    exact h.returns fun body hbody ↦ ⟨ps, body, hps, hbody, rfl⟩
  have htext : Settled (asyncArrow (' ' :: s) ++ r) := rfl
  have hfirst : Reads upcoming [] (asyncArrow (' ' :: s) ++ r) (· = asyncArrow (' ' :: s) ++ r) :=
    reads_upcoming (b := []) blank_nil htext
  have hall : Reads (do
      let c := (← upcoming).head?
      guard (c.any fun ch ↦ isNameStart ch || ch == '(' || ch == '<' && g.types)
      let head ← (keyword "async" *> sameLine *> arrowHead g) <|> arrowHead g
      let body ← if (← upcoming).head? == some '\x7b' then block g else g.parse (.expression true)
      return head ++ [body.inRole .body]) (asyncArrow (' ' :: s)) r fun ns ↦
        ∃ ps body, IsNode .parameters [] ps ∧ P body ∧ ns = [ps, body.inRole .body] := by
    refine hfirst.nil_then fun a ha ↦ .guarded ?_ hparts
    rw [ha]
    rfl
  refine (hall.node (b := []) blank_nil htext).mono ?_
  rintro n ⟨-, _, hn, ps, body, hps, hbody, rfl⟩
  exact ⟨ps, body, hps, hbody, hn⟩

theorem reads_fullExpression_arrow (hg : g.types = false) (hb : Blank b) (hq : Quiet r)
    (hbrace : s.head? = some '\x7b') (h : Reads (block g) (' ' :: s) r P)
    (hkind : ∀ n, P n → n.kind = .block) :
    Reads (fullExpression g true) (b ++ asyncArrow (' ' :: s)) r (IsArrow P) := by
  have htext : Settled (asyncArrow (' ' :: s) ++ r) := rfl
  have harrow : Reads (arrow g true) (b ++ asyncArrow (' ' :: s)) r (IsArrow P) := by
    refine (reads_place hb htext).bind fun start _ ↦ ?_
    refine (reads_arrowFunction hg hbrace h).then_nil fun f hf ↦ ?_
    obtain ⟨ps, body, hps, hbody, hnode⟩ := hf
    have hpart : f.part .body = some (body.inRole .body) := by
      have hparameters : (ps.role == some .body) = false := by
        rw [hps.role]
        rfl
      rw [Node.part, hnode.children, List.find?_cons, hparameters]
      rfl
    have hblock : ((f.part .body).any (·.kind == .block)) = true := by
      rw [hpart, Option.any_some, Node.inRole, hkind body hbody]
      rfl
    rw [hblock, if_pos rfl]
    refine (hq.refuses_suffix hg).grow.mono ?_
    rintro n rfl
    exact ⟨ps, body, hps, hbody, hnode⟩
  refine (reads_upcoming hb htext).nil_then fun a ha ↦ ?_
  rw [ha]
  exact harrow.orElse_left

def IsBlock (L : List Node → Prop) (n : Node) : Prop := ∃ ns, IsNode .block ns n ∧ L ns

theorem reads_block {L : List Node → Prop} (hb : Blank b) (hc : Blank b')
    (h : Repeats (g.parse .statement) s (b' ++ '\x7d' :: r) L) :
    Reads (block g) (b ++ '\x7b' :: (s ++ (b' ++ ['\x7d']))) r (IsBlock L) := by
  have hclosing : Reads (sign "\x7d") (b' ++ ['\x7d']) r fun _ ↦ True :=
    reads_sign (s := "\x7d") hc rfl rfl
  have hstatements : Reads (many (g.parse .statement)) s ((b' ++ ['\x7d']) ++ r) L := by
    rw [List.append_assoc]
    exact h.reads
  have hparts : Reads (do
      sign "\x7b"
      let body ← many (g.parse .statement)
      sign "\x7d"
      return body) (['\x7b'] ++ (s ++ (b' ++ ['\x7d']))) r L :=
    (reads_sign (b := []) (s := "\x7b") blank_nil rfl rfl).bind fun _ _ ↦
      hstatements.bind fun body hbody ↦ hclosing.returns fun _ _ ↦ hbody
  have hs : Settled ('\x7b' :: (s ++ (b' ++ ['\x7d'])) ++ r) := rfl
  refine (hparts.node hb hs).mono ?_
  rintro n ⟨-, ns, hn, hL⟩
  exact ⟨ns, hn, hL⟩

end functions

end CommandCoverage.Script.Parser
