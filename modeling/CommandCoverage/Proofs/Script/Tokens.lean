import CommandCoverage.Proofs.Script.Escapes
import CommandCoverage.Proofs.Script.Reads

namespace CommandCoverage.Script.Parser

inductive NamePart : List Char → Prop
  | char {c : Char} (hc : isNameChar c = true) : NamePart [c]
  | code {a b c d : Char} (hd : ∀ x ∈ [a, b, c, d], isHexDigit x = true) :
      NamePart ['\\', 'u', a, b, c, d]
  | braced {ds : List Char} (hne : ds ≠ []) (hd : ∀ x ∈ ds, isHexDigit x = true) :
      NamePart ('\\' :: 'u' :: '\x7b' :: (ds ++ ['\x7d']))

def beginsWord (t : List Char) : Bool := t.head?.any fun ch ↦ isNameStart ch || ch == '\\'

def endsWord (t : List Char) : Bool := t.head?.all fun ch ↦ !isNameChar ch && ch != '\\'

structure IsWord (w : List Char) : Prop where
  begins : beginsWord w = true
  parts : ∃ ps : List (List Char), w = ps.flatten ∧ ∀ p ∈ ps, NamePart p

variable {b r t w : List Char} {c q : Char} {raw : List Char} {ss : List Symbol} {s : String}
  {kind : Kind}

section characters

theorem isNameChar_iff : isNameChar c = true ↔ '\x1f' < c ∧ isBlank c = false ∧
    c ∉ ":;\x60\"'@#.,|^&<=>+-*/\\%?!~()[]\x7b\x7d".toList := by
  simp only [isNameChar, Bool.and_eq_true, Bool.not_eq_true', List.contains_eq_mem,
    decide_eq_false_iff_not, decide_eq_true_eq, and_assoc]

theorem isHexDigit_cases (h : isHexDigit c = true) :
    isNameChar c = true ∧ c ≠ '\x7d' ∧ c ≠ '\'' ∧ c ≠ '\"' := by
  have hall : ∀ n < 103, isHexDigit (Char.ofNat n) = true → isNameChar (Char.ofNat n) = true ∧
      Char.ofNat n ≠ '\x7d' ∧ Char.ofNat n ≠ '\'' ∧ Char.ofNat n ≠ '\"' := by
    decide +kernel
  have hlt : c.toNat < 103 := by
    simp only [isHexDigit, isDigit, Bool.or_eq_true, Bool.and_eq_true, decide_eq_true_eq,
      Char.le_def, UInt32.le_iff_toNat_le] at h
    have h9 : '9'.val.toNat = 57 := rfl
    have hf : 'f'.val.toNat = 102 := rfl
    have hF : 'F'.val.toNat = 70 := rfl
    have hc : c.toNat = c.val.toNat := rfl
    omega
  have hc := hall c.toNat hlt
  rw [Char.ofNat_toNat] at hc
  exact hc h

theorem settled_of_beginsWord (h : beginsWord t = true) (r : List Char) : Settled (t ++ r) := by
  cases t with
  | nil => cases h
  | cons ch t =>
    simp only [beginsWord, List.head?_cons, Option.any_some, Bool.or_eq_true, beq_iff_eq] at h
    simp only [Settled, List.cons_append, List.head?_cons, Option.all_some, Bool.and_eq_true,
      Bool.not_eq_true', bne_iff_ne]
    rcases h with h | rfl
    · have hchar : isNameChar ch = true := by
        simp only [isNameStart, Bool.and_eq_true] at h
        exact h.1
      obtain ⟨-, hblank, hsign⟩ := isNameChar_iff.1 hchar
      refine ⟨hblank, ?_⟩
      rintro rfl
      exact hsign (by decide)
    · decide

theorem beginsWord_of_head (h : t.head? = some c) (hc : (isNameStart c || c == '\\') = false) :
    beginsWord t = false := by
  rw [beginsWord, h]
  exact hc

theorem endsWord_of_head (h : t.head? = some c) (hc : (!isNameChar c && c != '\\') = true) :
    endsWord t = true := by
  rw [endsWord, h]
  exact hc

end characters

section signs

theorem reads_sign (hb : Blank b) (ht : Settled (s.toList ++ r))
    (hc : continues s (s.toList ++ r) = false) :
    Reads (sign s) (b ++ s.toList) r fun _ ↦ True := by
  refine (reads_place hb ht).bind fun start ⟨_, hstart⟩ ↦ ?_
  have hahead : (start.startsWith s && !continues s start.rest) = true := by
    rw [Cursor.startsWith, hstart, hc]
    simp
  exact .guarded hahead (reads_chars s.toList r)

def Differs (t : List Char) (s : String) : Prop := t.head? ≠ s.toList.head? ∧ s.toList ≠ []

theorem differs_of_head (h : t.head? = some c) (ho : s.toList ≠ [])
    (hne : s.toList.head? ≠ some c) : Differs t s :=
  ⟨fun he ↦ hne (he ▸ h), ho⟩

theorem differs_of_not_mem {x : Char} {cs : List Char} (h : t.head? = some c) (hc : c ∉ cs)
    (ho : s.toList.head? = some x) (hx : x ∈ cs) : Differs t s := by
  refine differs_of_head h ?_ ?_
  · intro hnil
    rw [hnil] at ho
    cases ho
  · rw [ho]
    rintro he
    exact hc (Option.some_inj.1 he ▸ hx)

theorem Differs.not_prefix (h : Differs t s) : s.toList.isPrefixOf t = false := by
  obtain ⟨hne, hs⟩ := h
  cases hl : s.toList with
  | nil => exact absurd hl hs
  | cons ch cs =>
    cases t with
    | nil => rfl
    | cons ch' t =>
      rw [hl] at hne
      have hch : ch ≠ ch' := fun he ↦ hne (congrArg some he.symm)
      rw [List.isPrefixOf, beq_false_of_ne hch, Bool.false_and]

theorem refuses_mark (hb : Blank b) (ht : Settled t) (hd : Differs t s) :
    Refuses (mark s) (b ++ t) := by
  refine .after (reads_place hb ht) fun start ⟨_, hstart⟩ ↦ .bind (refuses_guard ?_)
  rw [Cursor.startsWith, hstart, hd.not_prefix]

theorem refuses_sign (hb : Blank b) (ht : Settled t) (hd : Differs t s) :
    Refuses (sign s) (b ++ t) := by
  refine .after (reads_place hb ht) fun start ⟨_, hstart⟩ ↦ .bind (refuses_guard ?_)
  rw [Cursor.startsWith, hstart, hd.not_prefix, Bool.false_and]

end signs

section words

theorem NamePart.length_eq (h : NamePart w) (r : List Char) :
    nameCharLength (w ++ r) = w.length ∧ w ≠ [] := by
  cases h with
  | @char c hc =>
    refine ⟨?_, List.cons_ne_nil _ _⟩
    rw [List.singleton_append, nameCharLength, if_pos hc]
    · rfl
    · rintro r rfl
      exact absurd hc (by decide)
    · rintro _ _ _ _ _ rfl
      exact absurd hc (by decide)
  | @code a b c d hd =>
    have hall : [a, b, c, d].all isHexDigit = true := List.all_eq_true.2 hd
    refine ⟨?_, List.cons_ne_nil _ _⟩
    simp only [List.cons_append, List.nil_append]
    rw [nameCharLength, if_pos hall]
    · rfl
    · rintro rfl
      exact absurd (hd '\x7b' (by simp)) (by decide)
  | @braced ds hne hd =>
    have htake : (ds ++ '\x7d' :: r).takeWhile isHexDigit = ds := by
      rw [List.takeWhile_append_of_pos hd, List.takeWhile_cons_of_neg (by decide), List.append_nil]
    refine ⟨?_, List.cons_ne_nil _ _⟩
    have hpos : 0 < ds.length := List.length_pos_iff.2 hne
    simp [nameCharLength, htake, hpos]

theorem nameLength_flatten {ps : List (List Char)} {n : Nat} (hps : ∀ p ∈ ps, NamePart p)
    (hr : endsWord r = true) (hn : ps.flatten.length ≤ n) :
    nameLength n (ps.flatten ++ r) = ps.flatten.length := by
  induction ps generalizing n with
  | nil =>
    cases n with
    | zero => rfl
    | succ n =>
      have hzero : nameCharLength r = 0 := by
        cases r with
        | nil => rfl
        | cons ch r =>
          simp only [endsWord, List.head?_cons, Option.all_some, Bool.and_eq_true,
            Bool.not_eq_true', bne_iff_ne] at hr
          unfold nameCharLength
          split <;> simp_all
      rw [List.flatten_nil, List.nil_append, nameLength, hzero]
      rfl
  | cons p ps ih =>
    obtain ⟨hlength, hne⟩ := (hps p List.mem_cons_self).length_eq (ps.flatten ++ r)
    have hpos : 0 < p.length := List.length_pos_iff.2 hne
    rw [List.flatten_cons, List.length_append] at hn
    obtain ⟨n, rfl⟩ : ∃ k, n = k + 1 := ⟨n - 1, by omega⟩
    obtain ⟨k, hk⟩ : ∃ k, p.length = k + 1 := ⟨p.length - 1, by omega⟩
    have hrest := ih (fun x hx ↦ hps x (List.mem_cons_of_mem _ hx)) (n := n) (by omega)
    have hdrop : (p ++ (ps.flatten ++ r)).drop (k + 1) = ps.flatten ++ r := by
      rw [← hk, List.drop_left]
    rw [List.flatten_cons, List.append_assoc, nameLength, hlength, hk]
    change k + 1 + nameLength n ((p ++ (ps.flatten ++ r)).drop (k + 1)) = _
    rw [hdrop, hrest, List.length_append, hk]

theorem IsWord.nameLength_eq {n : Nat} (hw : IsWord w) (hr : endsWord r = true)
    (hn : w.length ≤ n) : nameLength n (w ++ r) = w.length := by
  obtain ⟨ps, rfl, hps⟩ := hw.parts
  exact nameLength_flatten hps hr hn

theorem IsWord.ne_nil (hw : IsWord w) : w ≠ [] := by
  rintro rfl
  cases hw.begins

theorem IsWord.settled (hw : IsWord w) (r : List Char) : Settled (w ++ r) :=
  settled_of_beginsWord hw.begins r

theorem isWord_of_chars (h : beginsWord w = true) (hw : w.all isNameChar = true) :
    IsWord w := by
  refine ⟨h, w.map ([·]), by rw [← List.flatMap_def, List.flatMap_singleton'], ?_⟩
  intro p hp
  obtain ⟨ch, hch, rfl⟩ := List.mem_map.1 hp
  exact .char (List.all_eq_true.1 hw ch hch)

theorem head?_append_of_beginsWord (h : beginsWord w = true) (r : List Char) :
    (w ++ r).head? = w.head? := by
  cases w with
  | nil => cases h
  | cons => rfl

theorem reads_word (hb : Blank b) (hw : IsWord w) (hr : endsWord r = true) :
    Reads word (b ++ w) r (· = String.ofList w) := by
  refine (reads_place hb (hw.settled r)).bind fun start ⟨hfits, hstart⟩ ↦ ?_
  have hbegins : (start.rest.head?.any fun ch ↦ isNameStart ch || ch == '\\') = true := by
    rw [hstart, head?_append_of_beginsWord hw.begins]
    exact hw.begins
  have hle : w.length ≤ start.size + 1 := by
    have hlength : w.length ≤ start.rest.length := by simp [hstart]
    exact Nat.le_succ_of_le (Nat.le_trans hlength hfits)
  have hlength : nameLength (start.size + 1) start.rest = w.length := by
    rw [hstart]
    exact hw.nameLength_eq hr hle
  have hpos : decide (w.length > 0) = true := by
    simpa using List.length_pos_iff.2 hw.ne_nil
  refine .guarded hbegins ?_
  rw [hlength]
  refine .guarded hpos ((reads_chars w r).returns fun _ _ ↦ ?_)
  rw [hstart, List.take_left]

theorem refuses_word (hb : Blank b) (ht : Settled t) (h : beginsWord t = false) :
    Refuses word (b ++ t) := by
  refine .after (reads_place hb ht) fun start ⟨_, hstart⟩ ↦ .bind (refuses_guard ?_)
  rw [hstart]
  exact h

theorem reads_keyword (hb : Blank b) (hw : IsWord s.toList) (hr : endsWord r = true) :
    Reads (keyword s) (b ++ s.toList) r fun _ ↦ True := by
  refine (reads_word hb hw hr).then_nil fun a ha ↦ reads_guard ?_
  rw [ha, String.ofList_toList]
  exact beq_self_eq_true s

theorem head?_of_word {c e : Cursor} {a : String} (h : word c = some (a, e)) :
    a.toList.head? = c.next.rest.head? := by
  obtain ⟨⟨_, _⟩, -, h⟩ := Option.bind_eq_some_iff.1 h
  obtain ⟨⟨_, _⟩, hpos, h⟩ := Option.bind_eq_some_iff.1 h
  obtain ⟨rfl, -⟩ := Prod.mk.inj (Option.some_inj.1 h)
  have hne : nameLength (c.next.size + 1) c.next.rest ≠ 0 := by
    intro hzero
    simp only [hzero] at hpos
    cases hpos
  rw [String.toList_ofList, List.head?_take, if_neg hne]

theorem refuses_keyword (hb : Blank b) (ht : Settled t) (hd : Differs t s) :
    Refuses (keyword s) (b ++ t) := by
  intro c hf hc
  rw [keyword, bind_apply]
  cases hw : word c with
  | none => rfl
  | some x =>
    have hhead := head?_of_word hw
    rw [Cursor.next_eq hf hc hb ht, rest_of_advance hc] at hhead
    have hne : (x.1 == s) = false := by
      refine beq_false_of_ne ?_
      rintro rfl
      exact hd.1 hhead.symm
    rw [Option.bind_some, hne]
    rfl

theorem refuses_keyword_of_ne (hb : Blank b) (hw : IsWord w) (hr : endsWord r = true)
    (hne : String.ofList w ≠ s) : Refuses (keyword s) (b ++ (w ++ r)) := by
  rw [← List.append_assoc]
  refine .after (reads_word hb hw hr) fun a ha ↦ refuses_guard ?_
  rw [ha]
  exact beq_false_of_ne hne

variable {ks : List String}

theorem reads_keywordOf (hb : Blank b) (hw : IsWord s.toList) (hr : endsWord r = true)
    (hk : ks.contains s = true) : Reads (keywordOf ks) (b ++ s.toList) r (· = s) := by
  refine (reads_word hb hw hr).then_nil fun a ha ↦ ?_
  rw [String.ofList_toList] at ha
  subst ha
  exact .guarded hk reads_pure

theorem refuses_keywordOf (hb : Blank b) (hw : IsWord w) (hr : endsWord r = true)
    (hk : ks.contains (String.ofList w) = false) : Refuses (keywordOf ks) (b ++ (w ++ r)) := by
  rw [← List.append_assoc]
  refine .after (reads_word hb hw hr) fun a ha ↦ .bind (refuses_guard ?_)
  rw [ha]
  exact hk

theorem reads_name (hb : Blank b) (hw : IsWord w) (hr : endsWord r = true)
    (hn : reserved.contains (String.ofList w) = false) :
    Reads name (b ++ w) r (· = String.ofList w) := by
  refine (reads_word hb hw hr).then_nil fun a ha ↦ ?_
  subst ha
  exact .guarded (by rw [hn]; rfl) reads_pure

theorem refuses_name (hb : Blank b) (hw : IsWord w) (hr : endsWord r = true)
    (hn : reserved.contains (String.ofList w) = true) : Refuses name (b ++ (w ++ r)) := by
  rw [← List.append_assoc]
  refine .after (reads_word hb hw hr) fun a ha ↦ .bind (refuses_guard ?_)
  rw [ha, hn]
  rfl

structure IsIdentifier (w : List Char) (n : Node) : Prop where
  node : IsNode (if String.ofList w = "undefined" then .undefined else .identifier) [] n
  text : n.text = String.ofList w

theorem reads_identifier (hb : Blank b) (hw : IsWord w) (hr : endsWord r = true)
    (hn : reserved.contains (String.ofList w) = false) :
    Reads identifier (b ++ w) r (IsIdentifier w) := by
  have hname : Reads name w r (· = String.ofList w) := reads_name (b := []) blank_nil hw hr hn
  refine (hname.leaf hb (hw.settled r)).returns fun n ⟨htext, hnode⟩ ↦ ?_
  rw [htext]
  by_cases hundefined : String.ofList w = "undefined"
  · rw [hundefined] at htext
    refine ⟨?_, by simp [hundefined]⟩
    simp only [hundefined, beq_self_eq_true, if_true]
    exact ⟨rfl, hnode.role, hnode.children⟩
  · rw [if_neg (by simpa using hundefined)]
    exact ⟨by simpa [hundefined] using hnode, htext⟩

theorem refuses_identifier_of_reserved (hb : Blank b) (hw : IsWord w) (hr : endsWord r = true)
    (hn : reserved.contains (String.ofList w) = true) : Refuses identifier (b ++ (w ++ r)) := by
  have hname : Refuses name (w ++ r) := refuses_name (b := []) blank_nil hw hr hn
  exact .bind (hname.leaf hb (hw.settled r))

theorem refuses_identifier (hb : Blank b) (ht : Settled t) (h : beginsWord t = false) :
    Refuses identifier (b ++ t) := by
  have hword : Refuses word t := refuses_word (b := []) blank_nil ht h
  exact .bind (Refuses.leaf hb ht hword.bind)

end words

section strings

theorem reads_span {length : List Char → Nat} (hb : Blank b) (ht : Settled (w ++ r))
    (hlength : length (w ++ r) = w.length) (hw : w ≠ []) :
    Reads (span kind length) (b ++ w) r fun n ↦ n.text = String.ofList w ∧ IsNode kind [] n := by
  refine Reads.leaf (P := fun _ ↦ True) hb ht ?_
  refine reads_get.nil_then fun c ⟨_, hc⟩ ↦ ?_
  have hpos : decide (length c.rest > 0) = true := by
    rw [hc, hlength]
    simpa using List.length_pos_iff.2 hw
  refine .guarded hpos ?_
  rw [hc, hlength]
  exact reads_chars w r

theorem quotedLength_plain {n : Nat} (hw : ∀ ch ∈ w, isPlain q ch = true) (hq : q ≠ '\x60')
    (r : List Char) : quotedLength q n (w ++ r) = quotedLength q (n + w.length) r := by
  induction w generalizing n with
  | nil => rfl
  | cons ch w ih =>
    have hch := hw ch List.mem_cons_self
    simp [isPlain, hq] at hch
    have hrest := ih (n := n + 1) fun x hx ↦ hw x (List.mem_cons_of_mem _ hx)
    have hstep : quotedLength q n (ch :: (w ++ r)) = quotedLength q (n + 1) (w ++ r) := by
      rw [quotedLength] <;> simp [hch]
    rw [List.cons_append, hstep, hrest, List.length_cons]
    congr 1
    omega

theorem quotedLength_escape (hc : c ≠ '\r') (n : Nat) (r : List Char) :
    quotedLength q n ('\\' :: c :: r) = quotedLength q (n + 2) r := by
  rw [quotedLength]
  rintro _ rfl
  exact absurd rfl hc

theorem isPlain_of_isHexDigit (hq : q = '\'' ∨ q = '\"') (hc : isHexDigit c = true) :
    isPlain q c = true := by
  obtain ⟨hname, -, hsingle, hdouble⟩ := isHexDigit_cases hc
  have hne : ∀ x : Char, isNameChar x = false → c ≠ x := by
    rintro x hx rfl
    rw [hname] at hx
    cases hx
  have hslash := hne '\\' (by decide)
  have hfeed := hne '\n' (by decide)
  have hreturn := hne '\r' (by decide)
  rcases hq with rfl | rfl
  · simp [isPlain, hslash, hfeed, hreturn, hsingle]
  · simp [isPlain, hslash, hfeed, hreturn, hdouble]

/-- The form of a code is a letter and characters that stand for themselves between quotes. -/
theorem exists_plain_of_writesCode {n : Nat} {form : List Char} (hq : q = '\'' ∨ q = '\"')
    (h : WritesCode n form) :
    ∃ x cs, form = x :: cs ∧ x ≠ '\r' ∧ ∀ ch ∈ cs, isPlain q ch = true := by
  cases h with
  | two hd => exact ⟨_, _, rfl, by decide, fun ch hch ↦ isPlain_of_isHexDigit hq (hd ch hch)⟩
  | four hd => exact ⟨_, _, rfl, by decide, fun ch hch ↦ isPlain_of_isHexDigit hq (hd ch hch)⟩
  | @braced ds _ hd =>
    refine ⟨_, _, rfl, by decide, fun ch hch ↦ ?_⟩
    have hbrace : isPlain q '\x7b' = true ∧ isPlain q '\x7d' = true := by
      rcases hq with rfl | rfl <;> decide
    rcases List.mem_cons.1 hch with rfl | hch
    · exact hbrace.1
    · rcases List.mem_append.1 hch with hch | hch
      · exact isPlain_of_isHexDigit hq (hd ch hch)
      · exact List.mem_singleton.1 hch ▸ hbrace.2

theorem quotedLength_form {n k : Nat} {form : List Char} (hq : q = '\'' ∨ q = '\"')
    (h : WritesCode n form) (r : List Char) :
    quotedLength q k ('\\' :: (form ++ r)) = quotedLength q (k + form.length + 1) r := by
  obtain ⟨x, cs, rfl, hx, hcs⟩ := exists_plain_of_writesCode hq h
  have hgrave : q ≠ '\x60' := by
    rcases hq with rfl | rfl <;> decide
  rw [List.cons_append, quotedLength_escape hx, quotedLength_plain hcs hgrave, List.length_cons]
  congr 1
  omega

theorem quotedLength_writes (hq : q = '\'' ∨ q = '\"') (h : Writes q raw ss) {m n : Nat}
    (hm : m = n + raw.length) (r : List Char) :
    quotedLength q n (raw ++ r) = quotedLength q m r := by
  have hgrave : q ≠ '\x60' := by
    rcases hq with rfl | rfl <;> decide
  induction h generalizing n with
  | nil => rw [hm]; rfl
  | @itself c raw ss hc _ ih =>
    have hplain := quotedLength_plain (q := q) (w := [c]) (n := n) (by simpa using hc) hgrave
      (raw ++ r)
    rw [List.cons_append, ← List.singleton_append, hplain]
    exact ih (by simp at hm ⊢; omega)
  | letter he _ ih =>
    obtain ⟨-, -, -, hr⟩ := simpleEscape_of_mem he
    rw [List.cons_append, List.cons_append, quotedLength_escape hr]
    exact ih (by simp at hm ⊢; omega)
  | identity hc _ ih =>
    obtain ⟨-, -, -, hr⟩ := simpleEscape_of_isIdentityEscape hc
    rw [List.cons_append, List.cons_append, quotedLength_escape hr]
    exact ih (by simp at hm ⊢; omega)
  | code hf _ ih =>
    rw [List.cons_append, List.append_assoc, quotedLength_form hq hf]
    exact ih (by simp at hm ⊢; omega)
  | pair _ hh hl _ ih =>
    rw [List.cons_append, List.append_assoc, quotedLength_form hq hh, List.cons_append,
      List.append_assoc, quotedLength_form hq hl]
    exact ih (by simp at hm ⊢; omega)
  | lone _ hf _ ih =>
    rw [List.cons_append, List.append_assoc, quotedLength_form hq hf]
    exact ih (by simp at hm ⊢; omega)
  | lineFeed _ ih =>
    rw [List.cons_append, List.cons_append, quotedLength_escape (by decide)]
    exact ih (by simp at hm ⊢; omega)
  | carriageReturn _ ih =>
    rw [List.cons_append, List.cons_append, List.cons_append, quotedLength]
    exact ih (by simp at hm ⊢; omega)

theorem reads_string (hb : Blank b) (hq : q = '\'' ∨ q = '\"') (h : Writes q raw ss)
    (r : List Char) : Reads string (b ++ q :: (raw ++ [q])) r fun n ↦
      n.text = String.ofList (q :: (raw ++ [q])) ∧ IsNode .string [] n := by
  have hsettled : Settled (q :: (raw ++ [q]) ++ r) := by
    rcases hq with rfl | rfl <;> rfl
  have hlength : quotedLength q 1 (raw ++ q :: r) = (q :: (raw ++ [q])).length := by
    rw [quotedLength_writes hq h rfl]
    rcases hq with rfl | rfl <;> simp [quotedLength] <;> omega
  refine reads_span hb hsettled ?_ (List.cons_ne_nil _ _)
  rw [List.cons_append, List.append_assoc, List.singleton_append]
  rcases hq with rfl | rfl
  · exact hlength
  · exact hlength

end strings

end CommandCoverage.Script.Parser
