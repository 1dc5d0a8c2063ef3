import CommandCoverage.Proofs.Script.Tokens

namespace CommandCoverage.Script.Parser

variable {α : Type} {g : Grammar} {b r s t w : List Char} {c : Char} {o : String}
  {start : Cursor} {left : Node} {kind : Kind} {P Q : Node → Prop}

def operatorStarts : List Char := "?|&^=!<>+-*/%.([\x60i".toList

def Quiet (r : List Char) : Prop :=
  ∃ b t, r = b ++ t ∧ Blank b ∧ Settled t ∧ ∀ ch ∈ t.head?, ch ∉ operatorStarts

def GoesOn (o : String) : Prop := ∃ ch ∈ o.toList.head?, ch ∈ operatorStarts

instance (o : String) : Decidable (GoesOn o) :=
  decidable_of_iff (o.toList.head?.any operatorStarts.contains = true) (by
    simp [GoesOn, Option.any_eq_true])

theorem Differs.of_goesOn (hq : ∀ ch ∈ t.head?, ch ∉ operatorStarts) (ho : GoesOn o) :
    Differs t o := by
  obtain ⟨ch, hch, hstarts⟩ := ho
  refine ⟨fun he ↦ hq ch (he ▸ hch) hstarts, ?_⟩
  intro hnil
  simp [hnil] at hch

theorem refuses_firstM {f : String → Parser α} {os : List String}
    (hf : ∀ o ∈ os, Refuses (f o) r) : Refuses (os.firstM f) r := by
  induction os with
  | nil => exact refuses_failure
  | cons o os ih =>
    rw [List.firstM]
    exact .orElse (hf o List.mem_cons_self) (ih fun x hx ↦ hf x (List.mem_cons_of_mem _ hx))

theorem refuses_typedValue (hg : g.types = false) : Refuses (typedValue g start left) r :=
  .bind (refuses_guard hg)

theorem goesOn_operators : ∀ os ∈ operators, ∀ o ∈ os, GoesOn o := by decide +kernel

theorem goesOn_assignmentSigns : ∀ o ∈ assignmentSigns, GoesOn o := by decide +kernel

section quiet

variable (hq : Quiet r)
include hq

theorem Quiet.refuses_sign (ho : GoesOn o) : Refuses (sign o) r := by
  obtain ⟨b, t, rfl, hb, ht, hhead⟩ := hq
  exact Parser.refuses_sign hb ht (.of_goesOn hhead ho)

theorem Quiet.refuses_keyword (ho : GoesOn o) : Refuses (keyword o) r := by
  obtain ⟨b, t, rfl, hb, ht, hhead⟩ := hq
  exact Parser.refuses_keyword hb ht (.of_goesOn hhead ho)

theorem Quiet.refuses_token (ho : GoesOn o) : Refuses (token o) r := by
  unfold token
  split
  · exact hq.refuses_keyword ho
  · exact hq.refuses_sign ho

theorem Quiet.refuses_node {p : Parser (List Node)} (h : ∀ t, Quiet t → Refuses p t) :
    Refuses (node kind p) r := by
  obtain ⟨b, t, rfl, hb, ht, hhead⟩ := hq
  exact (h t ⟨[], t, rfl, blank_nil, ht, hhead⟩).node hb ht

theorem Quiet.refuses_arguments : Refuses (arguments g) r :=
  hq.refuses_node fun _ h ↦ (h.refuses_sign (by decide)).bind

theorem Quiet.refuses_template {p : Parser Node} : Refuses (template p) r :=
  hq.refuses_node fun t ⟨b, t', he, hb, ht, hhead⟩ ↦
    .bind (he ▸ refuses_mark hb ht (.of_goesOn hhead (by decide)))

theorem Quiet.refuses_typeArguments (hg : g.types = false) : Refuses (typeArguments g) r :=
  hq.refuses_node fun _ _ ↦ (refuses_guard hg).bind

theorem Quiet.refuses_callArguments : Refuses (callArguments g) r :=
  .bind (.orElse hq.refuses_arguments hq.refuses_template)

theorem Quiet.refuses_memberSuffix (hg : g.types = false) : Refuses (memberSuffix g start left) r :=
  .orElse (.bind (.bind (hq.refuses_sign (by decide))))
    (.orElse (.bind (.bind (hq.refuses_sign (by decide)))) (.bind (.bind (refuses_guard hg))))

theorem Quiet.refuses_callSuffix (hg : g.types = false) : Refuses (callSuffix g start left) r :=
  .orElse (.bind (.bind hq.refuses_callArguments))
    (.orElse (.bind (hq.refuses_sign (by decide)))
      (.orElse (.bind (.bind (hq.refuses_typeArguments hg)))
        (.bind (.bind (hq.refuses_typeArguments hg)))))

theorem Quiet.refuses_suffix (hg : g.types = false) :
    Refuses (memberSuffix g start left <|> callSuffix g start left) r :=
  (hq.refuses_memberSuffix hg).orElse (hq.refuses_callSuffix hg)

theorem Quiet.refuses_signOf {os : List String} (hos : ∀ o ∈ os, GoesOn o) :
    Refuses (signOf os) r :=
  refuses_firstM fun o ho ↦ (hq.refuses_sign (hos o ho)).bind

theorem Quiet.refuses_tokens {os : List String} (hos : ∀ o ∈ os, GoesOn o) :
    Refuses (os.firstM token) r :=
  refuses_firstM fun o ho ↦ hq.refuses_token (hos o ho)

theorem Quiet.refuses_joined {levels : List (List String)}
    (hlevels : ∀ os ∈ levels, ∀ o ∈ os, GoesOn o) : Refuses (joined g true start left levels) r := by
  induction levels with
  | nil => exact refuses_failure
  | cons os levels ih =>
    rw [joined]
    have hos := hlevels os List.mem_cons_self
    exact .orElse (.bind (.bind (hq.refuses_tokens hos)))
      (ih fun x hx ↦ hlevels x (List.mem_cons_of_mem _ hx))

theorem Quiet.reads_binary {levels : List (List String)} (hg : g.types = false)
    (hlevels : ∀ os ∈ levels, ∀ o ∈ os, GoesOn o) (hs : Settled (s ++ r))
    (h : Reads (unary g) s r P) : Reads (binary g true levels) s r P := by
  induction levels with
  | nil =>
    rw [binary]
    exact h
  | cons os levels ih =>
    have hrest := fun x hx ↦ hlevels x (List.mem_cons_of_mem _ hx)
    have hos := hlevels os List.mem_cons_self
    rw [binary]
    refine (reads_place (b := []) blank_nil hs).nil_then fun start _ ↦ ?_
    refine (ih hrest).then_nil fun first hfirst ↦ ?_
    have hstep (left : Node) : Refuses (nodeFrom start .binary (do
        (os.filter fun o ↦ true || o != "in").firstM token
        return [left, ← binary g true levels])) r :=
      .bind (.bind (hq.refuses_tokens fun o ho ↦ hos o (List.mem_of_mem_filter ho)))
    split
    · refine (Refuses.grow ?_).mono fun a ha ↦ ha ▸ hfirst
      exact (hstep first).orElse ((refuses_typedValue hg).orElse (hq.refuses_joined hrest))
    · exact (hstep first).grow.mono fun a ha ↦ ha ▸ hfirst

theorem Quiet.reads_conditional (hg : g.types = false) (hb : Blank b) (hs : Settled (s ++ r))
    (h : Reads (unary g) s r P) : Reads (conditional g true) (b ++ s) r P := by
  refine (reads_place hb hs).bind fun start _ ↦ ?_
  refine (hq.reads_binary hg goesOn_operators hs h).then_nil fun test htest ↦ ?_
  exact .orElse_right (.bind (.bind (hq.refuses_sign (by decide)))) (.pure htest)

theorem Quiet.reads_assignment (hg : g.types = false) (hb : Blank b) (hs : Settled (s ++ r))
    (h : Reads (unary g) s r P) : Reads (assignment g true) (b ++ s) r P := by
  refine (reads_place hb hs).bind fun start _ ↦ ?_
  refine (hq.reads_conditional hg (b := []) blank_nil hs h).then_nil fun left hleft ↦ ?_
  refine .orElse_right (.bind (.guarded ?_)) (.pure hleft)
  exact (hq.refuses_signOf goesOn_assignmentSigns).bind

theorem Quiet.reads_updated (hb : Blank b) (hs : Settled (s ++ (t ++ r)))
    (hnew : Refuses (construction g) (s ++ (t ++ r))) (hp : Reads (primary g) s (t ++ r) P)
    (hgrow : ∀ start x, P x →
      Grows (fun left ↦ memberSuffix g start left <|> callSuffix g start left) x t r Q) :
    Reads (updated g) (b ++ (s ++ t)) r Q := by
  have hs' : Settled (s ++ t ++ r) := by rwa [List.append_assoc]
  have hchain : Reads (memberChain g) (s ++ t) r Q := by
    refine (reads_place (b := []) blank_nil hs').nil_then fun start _ ↦ ?_
    exact (hp.orElse_right hnew).bind fun x hx ↦ (hgrow start x hx).reads
  refine (reads_place hb hs').bind fun start _ ↦ hchain.then_nil fun e he ↦ ?_
  refine .orElse_right (.bind ?_) (.pure he)
  exact .sameLine (hq.refuses_signOf (by decide)).bind

end quiet

section heads

def openingSigns : List Char :=
  ['+', '-', '!', '~', '<', '(', '[', '\x7b', '\"', '\'', '\x60', '/', '#', '@', '.', ';']

theorem exists_cons_of_beginsWord (h : beginsWord t = true) :
    ∃ ch t', t = ch :: t' ∧ ch ∉ openingSigns ∧ isDigit ch = false := by
  cases t with
  | nil => cases h
  | cons ch t =>
    refine ⟨ch, t, rfl, ?_⟩
    simp only [beginsWord, List.head?_cons, Option.any_some, Bool.or_eq_true, beq_iff_eq,
      isNameStart, Bool.and_eq_true, Bool.not_eq_true'] at h
    rcases h with ⟨hname, hdigit⟩ | rfl
    · refine ⟨fun hmem ↦ (isNameChar_iff.1 hname).2.2 ?_, hdigit⟩
      have hsub : openingSigns ⊆ ":;\x60\"'@#.,|^&<=>+-*/\\%?!~()[]\x7b\x7d".toList := by decide
      exact hsub hmem
    · decide

theorem IsWord.differs (hw : IsWord w) {x : Char} (ho : o.toList.head? = some x)
    (hx : x ∈ openingSigns) (r : List Char) : Differs (w ++ r) o := by
  obtain ⟨ch, w', rfl, hch, -⟩ := exists_cons_of_beginsWord hw.begins
  exact differs_of_not_mem (c := ch) rfl hch ho hx

theorem refuses_construction (hb : Blank b) (ht : Settled t) (hd : Differs t "new") :
    Refuses (construction g) (b ++ t) :=
  .after (reads_place hb ht) fun _ _ ↦ (refuses_keyword (b := []) blank_nil ht hd).bind

theorem refuses_construction_of_ne (hb : Blank b) (hw : IsWord w) (hr : endsWord r = true)
    (hne : String.ofList w ≠ "new") : Refuses (construction g) (b ++ (w ++ r)) :=
  .after (reads_place hb (hw.settled r)) fun _ _ ↦
    (refuses_keyword_of_ne (b := []) blank_nil hw hr hne).bind

theorem reads_unary {ch : Char} (hb : Blank b) (hs : Settled (s ++ r))
    (hhead : (s ++ r).head? = some ch)
    (hch : ch ∉ ['+', '-', '!', '~', '<', 'd', 't', 'v', 'a'])
    (h : Reads (updated g) (b ++ s) r P) : Reads (unary g) (b ++ s) r P := by
  refine (reads_upcoming hb hs).nil_then fun a ha ↦ ?_
  rw [ha, hhead]
  simp only [List.mem_cons, not_or] at hch
  have hletters : "dtva".toList = ['d', 't', 'v', 'a'] := rfl
  dsimp only
  split <;> simp_all

theorem refuses_prefixed (hb : Blank b) (hw : IsWord w) (hr : endsWord r = true) {ks : List String}
    (hk : ks.contains (String.ofList w) = false) :
    Refuses (node kind (do let _ ← keywordOf ks; return [← g.parse .unary])) (b ++ (w ++ r)) :=
  .node hb (hw.settled r) (refuses_keywordOf (b := []) blank_nil hw hr hk).bind

theorem reads_unary_word (hb : Blank b) (hw : IsWord w) (hr : endsWord (s ++ r) = true)
    (hne : ["delete", "typeof", "void"].contains (String.ofList w) = false)
    (hawait : ["await"].contains (String.ofList w) = false)
    (h : Reads (updated g) (b ++ (w ++ s)) r P) : Reads (unary g) (b ++ (w ++ s)) r P := by
  have hs : Settled (w ++ s ++ r) := by
    rw [List.append_assoc]
    exact hw.settled _
  have htext : b ++ (w ++ s) ++ r = b ++ (w ++ (s ++ r)) := by simp
  have hword : Reads (node .unary (do
      let _ ← keywordOf ["delete", "typeof", "void"]
      return [← g.parse .unary]) <|>
    node .await (do
      let _ ← keywordOf ["await"]
      return [← g.parse .unary]) <|> updated g) (b ++ (w ++ s)) r P := by
    refine .orElse_right ?_ (.orElse_right ?_ h)
    · exact htext ▸ refuses_prefixed hb hw hr hne
    · exact htext ▸ refuses_prefixed hb hw hr hawait
  obtain ⟨ch, w', hcons, hch, -⟩ := exists_cons_of_beginsWord hw.begins
  have hhead : (w ++ s ++ r).head? = some ch := by rw [hcons]; rfl
  refine (reads_upcoming hb hs).nil_then fun a ha ↦ ?_
  rw [ha, hhead]
  simp only [openingSigns, List.mem_cons, not_or] at hch
  dsimp only
  split
  case h_6 =>
    split
    · exact hword
    · exact h
  all_goals simp_all

theorem refuses_functionForm (hw : IsWord w) (hr : endsWord r = true) (ht : Settled r)
    (hd : Differs r "function") (hne : String.ofList w ≠ "function") :
    Refuses (functionForm g false) (w ++ r) := by
  refine .after (s := []) (reads_place (b := []) blank_nil (hw.settled r)) fun _ _ ↦ ?_
  -- `async` may be a name, too: then no keyword comes after it
  by_cases hasync : String.ofList w = "async"
  · have hw' : w = "async".toList := by rw [← hasync, String.toList_ofList]
    subst hw'
    have htaken : Reads (taken (keyword "async" <* sameLine)) "async".toList r (· = true) := by
      refine Reads.taken (P := fun _ ↦ True) ?_
      exact (reads_keyword (b := []) blank_nil hw hr).then_nil fun _ _ ↦
        (reads_sameLine (b := []) blank_nil rfl ht).then_nil fun _ _ ↦ .pure trivial
    exact .after htaken fun _ _ ↦ (refuses_keyword (b := []) blank_nil ht hd).bind
  · have htaken : Reads (taken (keyword "async" <* sameLine)) [] (w ++ r) (· = false) :=
      Refuses.taken (Refuses.bind (refuses_keyword_of_ne (b := []) blank_nil hw hr hasync))
    exact .after (s := []) htaken fun _ _ ↦ (refuses_keyword_of_ne (b := []) blank_nil hw hr hne).bind

theorem lookup_wordsAsNodes {a : String} (hn : reserved.contains a = false) :
    wordsAsNodes.lookup a = none := by
  rw [List.lookup_eq_none_iff]
  intro p hp
  have hmem : reserved.contains p.1 = true := by
    revert p
    decide +kernel
  rw [bne_iff_ne]
  rintro rfl
  rw [hn] at hmem
  cases hmem

theorem reads_wordExpression (hw : IsWord w) (hr : endsWord r = true) (ht : Settled r)
    (hd : Differs r "function") (hn : reserved.contains (String.ofList w) = false) :
    Reads (wordExpression g) w r (IsIdentifier w) := by
  have hidentifier : Reads identifier w r (IsIdentifier w) :=
    reads_identifier (b := []) blank_nil hw hr hn
  have hword : Reads (ahead word) [] (w ++ r) fun _ ↦ True :=
    (reads_word (b := []) blank_nil hw hr).ahead
  have hupcoming : Reads upcoming [] (w ++ r) (· = w ++ r) :=
    reads_upcoming (b := []) blank_nil (hw.settled r)
  have hahead : Reads (ahead word *> upcoming) [] (w ++ r) (· = w ++ r) :=
    hword.seq (t := []) hupcoming
  refine hahead.nil_then fun a ha ↦ ?_
  have hlength : nameLength (a.length + 1) a = w.length := by
    rw [ha]
    exact hw.nameLength_eq hr (by simp; omega)
  dsimp only
  rw [hlength, ha, List.take_left]
  split
  case h_2 => exact hidentifier.orElse_right (refuses_functionForm hw hr ht hd (by simp_all))
  case h_5 =>
    rw [lookup_wordsAsNodes hn]
    exact hidentifier
  all_goals
    rename_i h
    rw [h] at hn
    exact absurd hn (by decide)

theorem reads_primary_word (hw : IsWord w) (hr : endsWord r = true) (ht : Settled r)
    (hd : Differs r "function") (hn : reserved.contains (String.ofList w) = false) :
    Reads (primary g) w r (IsIdentifier w) := by
  have hupcoming : Reads upcoming [] (w ++ r) (· = w ++ r) :=
    reads_upcoming (b := []) blank_nil (hw.settled r)
  obtain ⟨ch, w', hcons, hch, hdigit⟩ := exists_cons_of_beginsWord hw.begins
  have hhead : (w ++ r).head? = some ch := by rw [hcons]; rfl
  refine hupcoming.nil_then fun a ha ↦ ?_
  rw [ha, hhead]
  simp only [openingSigns, List.mem_cons, not_or] at hch
  split
  case h_11 h =>
    obtain rfl := Option.some_inj.1 h
    have hdot : (ch == '.') = false := by simp [hch]
    rw [hdigit, hdot]
    exact reads_wordExpression hw hr ht hd hn
  all_goals simp_all

theorem reads_primary_string (hs : (s ++ r).head? = some '\'') (h : Reads string s r P) :
    Reads (primary g) s r P := by
  have hsettled : Settled (s ++ r) := settled_of_head hs (by decide)
  have hupcoming : Reads upcoming [] (s ++ r) (· = s ++ r) :=
    reads_upcoming (b := []) blank_nil hsettled
  refine hupcoming.nil_then fun a ha ↦ ?_
  rw [ha, hs]
  exact h

theorem reads_primary_array (hs : (s ++ r).head? = some '[') (h : Reads (array g) s r P) :
    Reads (primary g) s r P := by
  have hsettled : Settled (s ++ r) := settled_of_head hs (by decide)
  have hupcoming : Reads upcoming [] (s ++ r) (· = s ++ r) :=
    reads_upcoming (b := []) blank_nil hsettled
  refine hupcoming.nil_then fun a ha ↦ ?_
  rw [ha, hs]
  exact h

end heads

section arrows

theorem refuses_signature (hg : g.types = false) (ht : Settled t) (hd : Differs t "(") :
    Refuses (signature g) t := by
  have hgenerics : Refuses (typeParameters g) t :=
    Refuses.node (b := []) blank_nil ht (refuses_guard hg).bind
  have hparameters : Refuses (parameters g) t :=
    Refuses.node (b := []) blank_nil ht (refuses_sign (b := []) blank_nil ht hd).bind
  exact .after (s := []) hgenerics.optional fun _ _ ↦ hparameters.bind

theorem refuses_arrow (hb : Blank b) (ht : Settled t) (hasync : Refuses (keyword "async") t)
    (hhead : Refuses (arrowHead g) t) : Refuses (arrow g true) (b ++ t) := by
  have hupcoming : Reads upcoming [] t (· = t) := reads_upcoming (b := []) (s := []) blank_nil ht
  have hfunction : Refuses (arrowFunction g true) t :=
    Refuses.node (b := []) blank_nil ht (.after (s := []) hupcoming fun _ _ ↦
      .guarded (.bind (.orElse (.seq (.seq hasync)) hhead)))
  exact .after (reads_place hb ht) fun _ _ ↦ hfunction.bind

theorem refuses_arrowHead (hg : g.types = false) (ht : Settled t) (h : Refuses identifier t)
    (hd : Differs t "(") : Refuses (arrowHead g) t :=
  .bind (.orElse h.bind (refuses_signature hg ht hd))

theorem refuses_arrow_word (hb : Blank b) (hw : IsWord w) (hr : endsWord r = true) (ht : Settled r)
    (hd : Differs r "=>") (hn : reserved.contains (String.ofList w) = false)
    (hasync : String.ofList w ≠ "async") : Refuses (arrow g true) (b ++ (w ++ r)) := by
  have hsingle : Reads (do return [← identifier] : Parser (List Node)) w r fun _ ↦ True :=
    (reads_identifier (b := []) blank_nil hw hr hn).returns fun _ _ ↦ trivial
  refine refuses_arrow hb (hw.settled r) (refuses_keyword_of_ne (b := []) blank_nil hw hr hasync) ?_
  exact .after hsingle.orElse_left fun _ _ ↦ (refuses_sign (b := []) blank_nil ht hd).bind

end arrows

section fullExpressions

theorem reads_fullExpression {c : Char} (hb : Blank b) (hs : Settled (s ++ r))
    (hhead : (s ++ r).head? = some c) (hch : c ≠ '<' ∧ c ≠ 'y')
    (harrow : Refuses (arrow g true) (b ++ s ++ r)) (h : Reads (assignment g true) (b ++ s) r P) :
    Reads (fullExpression g true) (b ++ s) r P := by
  refine (reads_upcoming hb hs).nil_then fun a ha ↦ ?_
  rw [ha, hhead]
  split
  · exact h.orElse_left
  · exact h.orElse_left
  · simp_all
  · simp_all
  · exact h.orElse_right harrow

end fullExpressions

end CommandCoverage.Script.Parser
