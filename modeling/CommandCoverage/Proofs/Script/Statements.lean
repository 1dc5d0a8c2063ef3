import CommandCoverage.Proofs.Script.Phrases

namespace CommandCoverage.Script.Parser

variable {g : Grammar} {b r s t w : List Char} {P : Node → Prop} {c : Cursor} {ch : Char}

section ends

/-- A statement ends here: the text is over, its block is, or the next line opens another one. -/
structure Ends (r : List Char) : Prop where
  ends : ∃ b t, r = b ++ t ∧ Blank b ∧ Settled t ∧ Differs t ";" ∧ Differs t "," ∧
    (t = [] ∨ t.head? = some '\x7d' ∨
      (b.any fun ch ↦ ch != '\r' && isLineBreak ch) = true ∧ Cursor.opensStatement t = true)

theorem Ends.refuses_comma (h : Ends r) : Refuses (sign ",") r := by
  obtain ⟨b, t, rfl, hb, ht, -, hd, -⟩ := h
  exact refuses_sign hb ht hd

theorem Ends.endsStatement (h : Ends r) (hf : c.Fits) (hc : c.rest = r) : c.endsStatement = true := by
  obtain ⟨b, t, rfl, hb, ht, -, -, hend⟩ := h
  have hnext : c.next.rest = t := by rw [Cursor.next_eq hf hc hb ht, rest_of_advance hc]
  rw [Cursor.endsStatement, hnext]
  rcases hend with rfl | hbrace | ⟨hbreaks, hopens⟩
  · rfl
  · obtain ⟨t, rfl⟩ := List.head?_eq_some_iff.1 hbrace
    rfl
  · split
    · rfl
    · rfl
    · rw [breaksLine_eq hf hc hb ht, hbreaks, hopens]
      rfl

theorem Ends.reads_semicolon (h : Ends r) : Reads semicolon [] r fun _ ↦ True := by
  intro c hf hc
  have hsign : sign ";" c = none := by
    obtain ⟨b, t, rfl, hb, ht, hd, -, -⟩ := h
    exact refuses_sign hb ht hd c hf hc
  refine ⟨(), ?_, trivial⟩
  rw [semicolon, hsign, h.endsStatement hf hc]
  rfl

def IsStatement (P : Node → Prop) (n : Node) : Prop := ∃ e, P e ∧ IsNode .expressionStatement [e] n

theorem Ends.reads_expressions (h : Ends r) (hs : Settled (s ++ r))
    (he : Reads (g.parse (.expression true)) s r P) : Reads (expressions g) s r P := by
  refine (reads_place (b := []) blank_nil hs).nil_then fun start _ ↦ ?_
  refine he.then_nil fun first hfirst ↦ ?_
  have hnone : Refuses (sign "," *> g.parse (.expression true)) r := h.refuses_comma.seq
  refine hnone.many.nil_then fun rest hrest ↦ ?_
  rw [hrest]
  exact .pure hfirst

theorem Ends.reads_expressionStatement (h : Ends r) (hb : Blank b) (hs : Settled (s ++ r))
    (he : Reads (g.parse (.expression true)) s r P) :
    Reads (expressionStatement g) (b ++ s) r (IsStatement P) := by
  have hparts : Reads (do
      let e ← expressions g
      semicolon
      return [e]) s r fun ns ↦ ∃ e, P e ∧ ns = [e] :=
    (h.reads_expressions hs he).then_nil fun e hp ↦ h.reads_semicolon.returns fun _ _ ↦ ⟨e, hp, rfl⟩
  refine (hparts.node hb hs).mono ?_
  rintro n ⟨-, _, hn, e, hp, rfl⟩
  exact ⟨e, hp, hn⟩

end ends

section dispatch

theorem reads_wordsAhead (hb : Blank b) (hw : IsWord w) (hr : endsWord r = true) :
    Reads wordsAhead [] (b ++ (w ++ r)) fun x ↦ x.1 = String.ofList w := by
  intro c hf hc
  obtain ⟨a, ha, rfl⟩ := reads_word hb hw hr c hf (by rw [hc]; simp)
  let e := c.advance (b ++ w).length
  refine ⟨(String.ofList w, if e.breaksLine then none else (word e).map (·.1)), ?_, rfl⟩
  rw [wordsAhead, ha]
  rfl

theorem reads_wordsAhead_none (h : Refuses word t) : Reads wordsAhead [] t (· = ("", none)) := by
  intro c hf hc
  refine ⟨_, ?_, rfl⟩
  rw [wordsAhead, h c hf hc]
  rfl

theorem reads_namesCallable (hb : Blank b) (ht : Settled t) (hasync : Differs t "async")
    (hfunction : Differs t "function") (hclass : Differs t "class") (hg : g.types = false) :
    Reads (namesCallable g) [] (b ++ t) (· = false) := by
  have hkeyword {o : String} (hd : Differs t o) : Refuses (keyword o) (b ++ t) :=
    refuses_keyword hb ht hd
  have htaken : Reads (taken (keyword "async" <* sameLine)) [] (b ++ t) (· = false) :=
    Refuses.taken (hkeyword hasync).bind
  have habstract : Reads (taken (guard g.types *> keyword "abstract")) [] (b ++ t) (· = false) :=
    Refuses.taken (refuses_guard hg).seq
  refine Refuses.taken (.ahead (.orElse ?_ ?_))
  · exact .after (s := []) htaken fun _ _ ↦ (hkeyword hfunction).bind
  · exact .after (s := []) habstract fun _ _ ↦ (hkeyword hclass).bind

def statementWords : List String :=
  ["if", "for", "while", "do", "try", "switch", "return", "throw", "break", "continue", "with",
    "debugger", "export", "import", "var", "const", "let"]

def Agree (p q : Parser Node) (c : Cursor) : Prop := p c = q c

theorem Agree.look {α : Type} {p : Parser α} {f : α → Parser Node} {q : Parser Node} {x : α}
    (hp : p c = some (x, c)) (hf : Agree (f x) q c) : Agree (p >>= f) q c := by
  rw [Agree, bind_apply, hp]
  exact hf

/-- Where no other statement is claimed by its first character or word, a labeled statement or an
expression comes. -/
theorem agree_anyStatement {a : String} {o : Option String} (hg : g.types = false)
    (hhead : c.next.rest.head? = some ch) (hch : ch ≠ '\x7b' ∧ ch ≠ ';' ∧ ch ≠ '@')
    (hwords : wordsAhead c = some ((a, o), c)) (ha : statementWords.contains a = false)
    (hcallable : namesCallable g c = some (false, c)) :
    Agree (anyStatement g) (otherStatement g) c := by
  have hupcoming : upcoming c = some (c.next.rest, c) := rfl
  refine .look hupcoming ?_
  rw [hhead]
  split
  case h_5 =>
    refine .look hwords ?_
    dsimp only
    split
    case h_18 =>
      refine .look hcallable ?_
      rw [hg]
      rfl
    -- every other branch is for one of the words
    all_goals exact absurd ha (by decide)
  -- and here for one of the characters
  all_goals simp_all

theorem agree_const {o : Option String} (hg : g.types = false) (hhead : c.next.rest.head? = some 'c')
    (hwords : wordsAhead c = some ((String.ofList "const".toList, o), c)) :
    Agree (anyStatement g) (variableStatement g) c := by
  have hupcoming : upcoming c = some (c.next.rest, c) := rfl
  refine .look hupcoming ?_
  rw [hhead]
  refine .look hwords (.look hwords ?_)
  rw [hg]
  rfl

theorem refuses_labeledStatement (hb : Blank b) (hw : IsWord w) (hr : endsWord r = true)
    (hn : reserved.contains (String.ofList w) = false) (ht : Settled r) (hd : Differs r ":") :
    Refuses (labeledStatement g) (b ++ (w ++ r)) :=
  .node hb (hw.settled r) (.after (reads_name (b := []) blank_nil hw hr hn) fun _ _ ↦
    (refuses_sign (b := []) blank_nil ht hd).bind)

theorem Ends.reads_otherStatement (hends : Ends r) (hb : Blank b) (hw : IsWord w)
    (hn : reserved.contains (String.ofList w) = false) (hu : Uses (s ++ r))
    (h : Reads (g.parse (.expression true)) (w ++ s) r P) :
    Reads (otherStatement g) (b ++ (w ++ s)) r (IsStatement P) := by
  have hcolon : Differs (s ++ r) ":" := hu.differs (by decide) (by decide)
  have hs : Settled (w ++ s ++ r) := by
    rw [List.append_assoc]
    exact hw.settled _
  refine .orElse_right ?_ (hends.reads_expressionStatement hb hs h)
  rw [List.append_assoc, List.append_assoc]
  exact refuses_labeledStatement hb hw hu.endsWord hn hu.settled hcolon

theorem Ends.reads_wordStatement (hends : Ends r) (hg : g.types = false) (hb : Blank b)
    (hw : IsWord w) (hn : reserved.contains (String.ofList w) = false)
    (ha : statementWords.contains (String.ofList w) = false)
    (hletters : w.head?.any ['a', 'f', 'c'].contains = false) (hu : Uses (s ++ r))
    (h : Reads (g.parse (.expression true)) (w ++ s) r P) :
    Reads (anyStatement g) (b ++ (w ++ s)) r (IsStatement P) := by
  have hother : Reads (otherStatement g) (b ++ (w ++ s)) r (IsStatement P) :=
    hends.reads_otherStatement hb hw hn hu h
  have hs : Settled (w ++ (s ++ r)) := hw.settled _
  obtain ⟨x, w', rfl, hx, -⟩ := exists_cons_of_beginsWord hw.begins
  have hletter : x ∉ ['a', 'f', 'c'] := by simpa using hletters
  have hdiffers {o : String} {y : Char} (ho : o.toList.head? = some y) (hy : y ∈ ['a', 'f', 'c']) :
      Differs (x :: w' ++ (s ++ r)) o := differs_of_not_mem (c := x) rfl hletter ho hy
  intro c hf hc
  have hc' : c.rest = b ++ (x :: w' ++ (s ++ r)) := by rw [hc]; simp
  obtain ⟨⟨a, o⟩, hwords, rfl⟩ := reads_wordsAhead hb hw hu.endsWord c hf hc'
  obtain ⟨_, hcallable, rfl⟩ := reads_namesCallable (g := g) hb hs
    (hdiffers (y := 'a') rfl (by decide)) (hdiffers (y := 'f') rfl (by decide))
    (hdiffers (y := 'c') rfl (by decide)) hg c hf hc'
  have hnext : c.next.rest.head? = some x := by
    rw [Cursor.next_eq hf hc' hb hs, rest_of_advance hc']
    rfl
  have hsigns : x ≠ '\x7b' ∧ x ≠ ';' ∧ x ≠ '@' :=
    ⟨fun he ↦ hx (he ▸ by decide), fun he ↦ hx (he ▸ by decide), fun he ↦ hx (he ▸ by decide)⟩
  have hagree : Agree (anyStatement g) (otherStatement g) c :=
    agree_anyStatement hg hnext hsigns hwords ha hcallable
  rw [hagree]
  exact hother c hf hc

theorem refuses_statement_of_brace (hg : g.types = false) (hb : Blank b)
    (hbrace : t.head? = some '\x7d') (h : Refuses (g.parse (.expression true)) t) :
    Refuses (anyStatement g) (b ++ t) := by
  have hcloses : Closes t := .inr hbrace
  have hs := hcloses.settled
  have hword : Refuses word (b ++ t) := refuses_word hb hs hcloses.beginsWord
  have hlabeled : Refuses (labeledStatement g) (b ++ t) :=
    .node hb hs (.bind (.bind (refuses_word (b := []) blank_nil hs hcloses.beginsWord)))
  have hexpressions : Refuses (expressions g) t :=
    .after (s := []) (reads_place (b := []) blank_nil hs) fun _ _ ↦ h.bind
  have hother : Refuses (otherStatement g) (b ++ t) :=
    .orElse hlabeled (.node hb hs hexpressions.bind)
  intro c hf hc
  obtain ⟨_, hwords, rfl⟩ := reads_wordsAhead_none hword c hf hc
  obtain ⟨_, hcallable, rfl⟩ := reads_namesCallable (g := g) hb hs
    (hcloses.differs (by decide) (by decide)) (hcloses.differs (by decide) (by decide))
    (hcloses.differs (by decide) (by decide)) hg c hf hc
  have hnext : c.next.rest.head? = some '\x7d' := by
    rw [Cursor.next_eq hf hc hb hs, rest_of_advance hc, hbrace]
  have hagree : Agree (anyStatement g) (otherStatement g) c :=
    agree_anyStatement hg hnext (by decide) hwords (by decide) hcallable
  rw [hagree]
  exact hother c hf hc

theorem refuses_statement_nil : Refuses (anyStatement g) [] := by
  have hupcoming : Reads upcoming [] [] (· = []) := reads_upcoming (b := []) (s := []) blank_nil rfl
  refine .after (s := []) hupcoming fun a ha ↦ ?_
  rw [ha]
  exact refuses_failure

end dispatch

section declarations

def IsDeclarator (w : List Char) (P : Node → Prop) (n : Node) : Prop :=
  ∃ target value, IsIdentifier w target ∧ P value ∧
    IsNode .declarator [target.inRole .name, value.inRole .value] n

def IsConstant (w : List Char) (P : Node → Prop) (n : Node) : Prop :=
  ∃ d, IsDeclarator w P d ∧ IsNode .lexicalDeclaration [d] n

theorem isWord_const : IsWord "const".toList := isWord_of_chars (by decide) (by decide)

theorem reads_binding (hw : IsWord w) (hr : endsWord r = true)
    (hn : reserved.contains (String.ofList w) = false) :
    Reads (binding g) w r (IsIdentifier w) := by
  have hsign {o : String} {x : Char} (ho : o.toList.head? = some x) (hx : x ∈ openingSigns) :
      Refuses (sign o) (w ++ r) :=
    refuses_sign (b := []) blank_nil (hw.settled r) (hw.differs ho hx r)
  refine .orElse_right ?_ (.orElse_right ?_ (reads_identifier (b := []) blank_nil hw hr hn))
  · exact .node (b := []) blank_nil (hw.settled r) (hsign (x := '\x7b') rfl (by decide)).bind
  · exact .node (b := []) blank_nil (hw.settled r) (hsign (x := '[') rfl (by decide)).bind

theorem reads_declarator (hg : g.types = false) (hw : IsWord w)
    (hn : reserved.contains (String.ofList w) = false)
    (h : Reads (g.parse (.expression true)) (' ' :: s) r P) :
    Reads (declarator g true) (' ' :: (w ++ ([' ', '='] ++ ' ' :: s))) r (IsDeclarator w P) := by
  have hs : Settled (w ++ ([' ', '='] ++ (' ' :: s ++ r))) := hw.settled _
  have hmark : Refuses (typeMark g) ([' ', '='] ++ (' ' :: s ++ r)) := by
    have hcolon : Refuses (sign ":") ([' '] ++ ('=' :: (' ' :: s ++ r))) :=
      refuses_sign (by decide) rfl (differs_of_head (c := '=') rfl (by decide) (by decide))
    exact hcolon.seq
  have hexclaim : Refuses (guard g.types *> sign "!") ([' ', '='] ++ (' ' :: s ++ r)) :=
    (refuses_guard hg).seq
  have hequals : Reads (sign "=") [' ', '='] (' ' :: s ++ r) fun _ ↦ True :=
    reads_sign (b := [' ']) (s := "=") (by decide) rfl rfl
  have hvalue : Reads (optional (sign "=" *> g.parse (.expression true)))
      ([' ', '='] ++ ' ' :: s) r fun o ↦ ∃ value, o = some value ∧ P value :=
    (hequals.seq h).optional
  have hparts : Reads (do
      let target ← binding g
      let _ ← taken (guard g.types *> sign "!")
      let annotated ← optional (typeMark g)
      let value ← optional (sign "=" *> g.parse (.expression true))
      return target.inRole .name :: annotated.toList ++ (value.map (·.inRole .value)).toList)
      (w ++ ([' ', '='] ++ ' ' :: s)) r fun ns ↦ ∃ target value, IsIdentifier w target ∧ P value ∧
        ns = [target.inRole .name, value.inRole .value] := by
    refine (reads_binding hw rfl hn).bind fun target ht ↦ ?_
    refine Reads.nil_then (by rw [List.append_assoc]; exact hexclaim.taken) fun _ _ ↦ ?_
    refine Reads.nil_then (by rw [List.append_assoc]; exact hmark.optional) fun annotated hnone ↦ ?_
    refine hvalue.returns ?_
    rintro _ ⟨value, rfl, hv⟩
    rw [hnone]
    exact ⟨target, value, ht, hv, rfl⟩
  refine (hparts.node (b := [' ']) (by decide) (by rw [List.append_assoc]; exact hs)).mono ?_
  rintro n ⟨-, _, hn, target, value, ht, hv, rfl⟩
  exact ⟨target, value, ht, hv, hn⟩

theorem Ends.reads_declarators (hends : Ends r) (hg : g.types = false) (hw : IsWord w)
    (hn : reserved.contains (String.ofList w) = false)
    (h : Reads (g.parse (.expression true)) (' ' :: s) r P) :
    Reads (declarators g true) ("const".toList ++ ' ' :: (w ++ ([' ', '='] ++ ' ' :: s))) r
      fun x ↦ ∃ d, IsDeclarator w P d ∧ x = (.lexicalDeclaration, [d]) := by
  have hkeyword : Reads (keywordOf ["var", "let", "const"]) "const".toList
      (' ' :: (w ++ ([' ', '='] ++ ' ' :: s)) ++ r) (· = "const") :=
    reads_keywordOf (b := []) blank_nil isWord_const rfl (by decide)
  have hrest : Refuses (sign "," *> declarator g true) r := hends.refuses_comma.seq
  refine hkeyword.bind fun k hk ↦ (reads_declarator hg hw hn h).then_nil fun d hd ↦ ?_
  refine hrest.many.returns fun ds hds ↦ ⟨d, hd, ?_⟩
  rw [hk, hds]
  rfl

theorem IsDeclarator.hasValue {d : Node} (h : IsDeclarator w P d) :
    ([d].getLast?.any fun d ↦ (d.part .value).isSome) = true := by
  obtain ⟨target, value, -, -, hd⟩ := h
  have hname : ((target.inRole .name).role == some .value) = false := rfl
  rw [List.getLast?_singleton, Option.any_some, Node.part, hd.children, List.find?_cons, hname]
  rfl

theorem Ends.reads_constant (hends : Ends r) (hg : g.types = false) (hb : Blank b) (hw : IsWord w)
    (hn : reserved.contains (String.ofList w) = false)
    (h : Reads (g.parse (.expression true)) (' ' :: s) r P) :
    Reads (anyStatement g) (b ++ ("const".toList ++ ' ' :: (w ++ ([' ', '='] ++ ' ' :: s)))) r
      (IsConstant w P) := by
  have hs : Settled ("const".toList ++ ' ' :: (w ++ ([' ', '='] ++ ' ' :: s)) ++ r) := rfl
  have hvariables : Reads (variableStatement g)
      (b ++ ("const".toList ++ ' ' :: (w ++ ([' ', '='] ++ ' ' :: s)))) r (IsConstant w P) := by
    refine (reads_place hb hs).bind fun start _ ↦ (hends.reads_declarators hg hw hn h).then_nil ?_
    rintro _ ⟨d, hd, rfl⟩
    dsimp only
    rw [hd.hasValue, if_pos rfl]
    exact hends.reads_semicolon.nil_then fun _ _ ↦ reads_get.returns fun e _ ↦
      ⟨d, hd, rfl, rfl, rfl⟩
  intro c hf hc
  have hc' : c.rest = b ++ ("const".toList ++ (' ' :: (w ++ ([' ', '='] ++ ' ' :: s)) ++ r)) := by
    rw [hc]
    simp
  obtain ⟨⟨a, o⟩, hwords, rfl⟩ := reads_wordsAhead hb isWord_const rfl c hf hc'
  have hnext : c.next.rest.head? = some 'c' := by
    rw [Cursor.next_eq hf hc' hb rfl, rest_of_advance hc']
    rfl
  have hagree : Agree (anyStatement g) (variableStatement g) c := agree_const hg hnext hwords
  rw [hagree]
  exact hvariables c hf hc

end declarations

end CommandCoverage.Script.Parser
