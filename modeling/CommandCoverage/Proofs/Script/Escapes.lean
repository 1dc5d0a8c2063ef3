import CommandCoverage.Script.Literal
import Mathlib.Data.List.Chain

namespace CommandCoverage.Script

/-- A part of the value of a string: a character, or a surrogate without its partner. -/
inductive Symbol where
  | char (c : Char)
  | lone (n : Nat)

namespace Symbol

def shown : Symbol → Char
  | char c => c
  | lone _ => '\ufffd'

def isHigh : Symbol → Bool
  | char _ => false
  | lone n => isHighSurrogate n

def isLow : Symbol → Bool
  | char _ => false
  | lone n => isLowSurrogate n

end Symbol

def Apart (ss : List Symbol) : Prop := ss.IsChain fun a b ↦ ¬(a.isHigh ∧ b.isLow)

def highOf (c : Char) : Nat := 0xd800 + (c.toNat - 0x10000) / 0x400

def lowOf (c : Char) : Nat := 0xdc00 + (c.toNat - 0x10000) % 0x400

inductive WritesCode (n : Nat) : List Char → Prop
  | two {a b : Char} (hd : ∀ x ∈ [a, b], isHexDigit x = true) (hn : hexValue [a, b] = n) :
      WritesCode n ['x', a, b]
  | four {a b c d : Char} (hd : ∀ x ∈ [a, b, c, d], isHexDigit x = true)
      (hn : hexValue [a, b, c, d] = n) : WritesCode n ['u', a, b, c, d]
  | braced {ds : List Char} (hne : ds ≠ []) (hd : ∀ x ∈ ds, isHexDigit x = true)
      (hn : hexValue ds = n) : WritesCode n ('u' :: '\x7b' :: (ds ++ ['\x7d']))

def letterEscapes : List (Char × Char) :=
  [('n', '\n'), ('t', '\t'), ('r', '\r'), ('0', '\x00'), ('b', '\x08'), ('f', '\x0c'), ('v', '\x0b')]

def isPlain (q c : Char) : Bool :=
  c != '\\' && c != q && (q == '\x60' || c != '\n' && c != '\r')

def isIdentityEscape (c : Char) : Bool := !"ntr0bfvxu1234567".toList.contains c && !isLineBreak c

inductive Writes (q : Char) : List Char → List Symbol → Prop
  | nil : Writes q [] []
  | itself {c : Char} {raw : List Char} {ss : List Symbol} (hc : isPlain q c = true)
      (h : Writes q raw ss) : Writes q (c :: raw) (.char c :: ss)
  | letter {e c : Char} {raw : List Char} {ss : List Symbol} (he : (e, c) ∈ letterEscapes)
      (h : Writes q raw ss) : Writes q ('\\' :: e :: raw) (.char c :: ss)
  | identity {c : Char} {raw : List Char} {ss : List Symbol} (hc : isIdentityEscape c = true)
      (h : Writes q raw ss) : Writes q ('\\' :: c :: raw) (.char c :: ss)
  | code {c : Char} {form raw : List Char} {ss : List Symbol} (hf : WritesCode c.toNat form)
      (h : Writes q raw ss) : Writes q ('\\' :: (form ++ raw)) (.char c :: ss)
  | pair {c : Char} {high low raw : List Char} {ss : List Symbol} (hc : 0xffff < c.toNat)
      (hh : WritesCode (highOf c) high) (hl : WritesCode (lowOf c) low) (h : Writes q raw ss) :
      Writes q ('\\' :: (high ++ '\\' :: (low ++ raw))) (.char c :: ss)
  | lone {n : Nat} {form raw : List Char} {ss : List Symbol}
      (hn : (isHighSurrogate n || isLowSurrogate n) = true) (hf : WritesCode n form)
      (h : Writes q raw ss) : Writes q ('\\' :: (form ++ raw)) (.lone n :: ss)
  | lineFeed {raw : List Char} {ss : List Symbol} (h : Writes q raw ss) :
      Writes q ('\\' :: '\n' :: raw) ss
  | carriageReturn {raw : List Char} {ss : List Symbol} (h : Writes q raw ss) :
      Writes q ('\\' :: '\r' :: '\n' :: raw) ss

inductive Coded : List Symbol → List Nat → Prop
  | nil : Coded [] []
  | char {c : Char} {ss : List Symbol} {codes : List Nat} (h : Coded ss codes) :
      Coded (.char c :: ss) (c.toNat :: codes)
  | pair {c : Char} {ss : List Symbol} {codes : List Nat} (hc : 0xffff < c.toNat)
      (h : Coded ss codes) : Coded (.char c :: ss) (highOf c :: lowOf c :: codes)
  | lone {n : Nat} {ss : List Symbol} {codes : List Nat}
      (hn : (isHighSurrogate n || isLowSurrogate n) = true) (h : Coded ss codes) :
      Coded (.lone n :: ss) (n :: codes)

variable {q c : Char} {raw form r : List Char} {ss : List Symbol} {codes : List Nat} {n fuel : Nat}

section codes

theorem WritesCode.codeEscape (h : WritesCode n form) (r : List Char) :
    codeEscape (form ++ r) = some (n, form.length) := by
  cases h with
  | @two a b hd hn =>
    have hall : [a, b].all isHexDigit = true := List.all_eq_true.2 hd
    simp only [List.cons_append, List.nil_append, Script.codeEscape, hall, if_true, hn]
    rfl
  | @four a b c d hd hn =>
    have hall : [a, b, c, d].all isHexDigit = true := List.all_eq_true.2 hd
    simp only [List.cons_append, List.nil_append]
    rw [Script.codeEscape, if_pos hall, hn]
    · rfl
    · -- A brace is no digit.
      rintro rfl
      exact absurd (hd '\x7b' (by simp)) (by decide)
  | @braced ds hne hd hn =>
    have htake : (ds ++ '\x7d' :: r).takeWhile isHexDigit = ds := by
      rw [List.takeWhile_append_of_pos hd, List.takeWhile_cons_of_neg (by decide), List.append_nil]
    simp [Script.codeEscape, htake, hne, hn]

theorem codeEscape_eq_none (hu : c ≠ 'u') (hx : c ≠ 'x') (r : List Char) :
    codeEscape (c :: r) = none := by
  unfold codeEscape
  split <;> simp_all

theorem WritesCode.exists_cons (h : WritesCode n form) : ∃ x r, form = x :: r ∧ x ≠ '\r' := by
  cases h with
  | two | four | braced => exact ⟨_, _, rfl, by decide⟩

theorem codesUpTo_form (h : WritesCode n form) (hn : n ≤ 0x10ffff) (fuel : Nat) (r : List Char) :
    codesUpTo (fuel + 1) ('\\' :: (form ++ r)) = n :: codesUpTo fuel r := by
  have hcode := h.codeEscape r
  obtain ⟨x, form, rfl, hx⟩ := h.exists_cons
  rw [List.cons_append] at hcode ⊢
  rw [codesUpTo]
  · simp [hcode, hn]
  · intro _ hr
    exact absurd hr hx

theorem codesUpTo_simple (hu : c ≠ 'u') (hx : c ≠ 'x') (hr : c ≠ '\r') (fuel : Nat) (r : List Char) :
    codesUpTo (fuel + 1) ('\\' :: c :: r) = simpleEscape c ++ codesUpTo fuel r := by
  rw [codesUpTo]
  · rw [codeEscape_eq_none hu hx]
  · intro _ hc
    exact absurd hc hr

theorem toNat_le (c : Char) : c.toNat ≤ 0x10ffff := by
  rcases c.valid with h | h
  · exact (Nat.le_of_lt h).trans (by decide)
  · exact Nat.le_of_lt_succ h.2

theorem isSurrogate_toNat (c : Char) :
    isHighSurrogate c.toNat = false ∧ isLowSurrogate c.toNat = false := by
  have h : c.toNat < 0xd800 ∨ 0xdfff < c.toNat ∧ c.toNat < 0x110000 := c.valid
  simp only [isHighSurrogate, isLowSurrogate, Bool.and_eq_false_iff, decide_eq_false_iff_not]
  omega

theorem simpleEscape_of_isIdentityEscape (hc : isIdentityEscape c = true) :
    simpleEscape c = [c.toNat] ∧ c ≠ 'u' ∧ c ≠ 'x' ∧ c ≠ '\r' := by
  simp [isIdentityEscape] at hc
  unfold simpleEscape
  split <;> simp_all [isLineBreak]

theorem simpleEscape_of_mem {e : Char} (he : (e, c) ∈ letterEscapes) :
    simpleEscape e = [c.toNat] ∧ e ≠ 'u' ∧ e ≠ 'x' ∧ e ≠ '\r' := by
  simp only [letterEscapes, List.mem_cons, Prod.mk.injEq, List.not_mem_nil, or_false] at he
  rcases he with ⟨rfl, rfl⟩ | ⟨rfl, rfl⟩ | ⟨rfl, rfl⟩ | ⟨rfl, rfl⟩ | ⟨rfl, rfl⟩ | ⟨rfl, rfl⟩ |
    ⟨rfl, rfl⟩ <;> decide

theorem Writes.coded (h : Writes q raw ss) (hf : raw.length < fuel) :
    Coded ss (codesUpTo fuel raw) := by
  induction h generalizing fuel with
  | nil => cases fuel <;> exact .nil
  | @itself c raw ss hc _ ih =>
    obtain ⟨fuel, rfl⟩ := Nat.exists_eq_add_one_of_ne_zero (Nat.ne_zero_of_lt hf)
    rw [codesUpTo]
    · exact .char (ih (by simpa using hf))
    · rintro rfl
      simp [isPlain] at hc
  | @letter e c raw ss he _ ih =>
    obtain ⟨fuel, rfl⟩ := Nat.exists_eq_add_one_of_ne_zero (Nat.ne_zero_of_lt hf)
    obtain ⟨hs, hu, hx, hr⟩ := simpleEscape_of_mem he
    rw [codesUpTo_simple hu hx hr, hs]
    exact .char (ih (by simp at hf; omega))
  | @identity c raw ss hc _ ih =>
    obtain ⟨fuel, rfl⟩ := Nat.exists_eq_add_one_of_ne_zero (Nat.ne_zero_of_lt hf)
    obtain ⟨hs, hu, hx, hr⟩ := simpleEscape_of_isIdentityEscape hc
    rw [codesUpTo_simple hu hx hr, hs]
    exact .char (ih (by simp at hf; omega))
  | @code c form raw ss hform _ ih =>
    obtain ⟨fuel, rfl⟩ := Nat.exists_eq_add_one_of_ne_zero (Nat.ne_zero_of_lt hf)
    rw [codesUpTo_form hform (toNat_le c)]
    exact .char (ih (by simp at hf; omega))
  | @pair c high low raw ss hc hh hl _ ih =>
    have hle := toNat_le c
    obtain ⟨fuel, rfl⟩ : ∃ k, fuel = k + 2 := ⟨fuel - 2, by simp at hf; omega⟩
    rw [codesUpTo_form hh (by unfold highOf; omega), codesUpTo_form hl (by unfold lowOf; omega)]
    exact .pair hc (ih (by simp at hf; omega))
  | @lone n form raw ss hn hform _ ih =>
    obtain ⟨fuel, rfl⟩ := Nat.exists_eq_add_one_of_ne_zero (Nat.ne_zero_of_lt hf)
    have hle : n ≤ 0x10ffff := by
      simp only [isHighSurrogate, isLowSurrogate, Bool.or_eq_true, Bool.and_eq_true,
        decide_eq_true_eq] at hn
      omega
    rw [codesUpTo_form hform hle]
    exact .lone hn (ih (by simp at hf; omega))
  | @lineFeed raw ss _ ih =>
    obtain ⟨fuel, rfl⟩ := Nat.exists_eq_add_one_of_ne_zero (Nat.ne_zero_of_lt hf)
    rw [codesUpTo_simple (by decide) (by decide) (by decide)]
    exact ih (by simp at hf; omega)
  | @carriageReturn raw ss _ ih =>
    obtain ⟨fuel, rfl⟩ := Nat.exists_eq_add_one_of_ne_zero (Nat.ne_zero_of_lt hf)
    rw [codesUpTo, codeEscape_eq_none (by decide) (by decide)]
    exact ih (by simp at hf; omega)

end codes

section joining

theorem joinSurrogates_char (c : Char) (codes : List Nat) :
    joinSurrogates (c.toNat :: codes) = c :: joinSurrogates codes := by
  obtain ⟨hhigh, hlow⟩ := isSurrogate_toNat c
  cases codes with
  | nil => simp [joinSurrogates, hhigh, hlow]
  | cons => simp [joinSurrogates, hhigh, hlow]

theorem isSurrogate_highOf (hc : 0xffff < c.toNat) :
    isHighSurrogate (highOf c) = true ∧ isLowSurrogate (highOf c) = false := by
  have hle := toNat_le c
  have hrange : 0xd800 ≤ highOf c ∧ highOf c < 0xdc00 := by
    unfold highOf
    omega
  simp only [isHighSurrogate, isLowSurrogate, Bool.and_eq_true, Bool.and_eq_false_iff,
    decide_eq_true_eq, decide_eq_false_iff_not]
  omega

theorem joinSurrogates_pair (hc : 0xffff < c.toNat) (codes : List Nat) :
    joinSurrogates (highOf c :: lowOf c :: codes) = c :: joinSurrogates codes := by
  have hlow : isLowSurrogate (lowOf c) = true := by
    have hrange : 0xdc00 ≤ lowOf c ∧ lowOf c ≤ 0xdfff := by
      unfold lowOf
      omega
    simpa [isLowSurrogate] using hrange
  have hcode : 0x10000 + (highOf c - 0xd800) * 0x400 + (lowOf c - 0xdc00) = c.toNat := by
    unfold highOf lowOf
    omega
  rw [joinSurrogates, (isSurrogate_highOf hc).1, hlow, Bool.and_self, if_pos rfl, hcode,
    Char.ofNat_toNat]

theorem joinSurrogates_lone (hn : (isHighSurrogate n || isLowSurrogate n) = true)
    (hnext : ∀ m ∈ codes.head?, ¬(isHighSurrogate n = true ∧ isLowSurrogate m = true)) :
    joinSurrogates (n :: codes) = '\ufffd' :: joinSurrogates codes := by
  cases codes with
  | nil => simp only [joinSurrogates, hn, if_true]
  | cons m codes =>
    have hpartner := hnext m rfl
    rw [joinSurrogates, if_neg (by simpa using hpartner), if_pos hn]

theorem Coded.isLow_head (h : Coded ss codes) {m : Nat} (hm : m ∈ codes.head?)
    (hlow : isLowSurrogate m = true) : ∃ s ∈ ss.head?, s.isLow = true := by
  cases h with
  | nil => cases hm
  | @char c =>
    obtain rfl := Option.some_inj.1 hm
    rw [(isSurrogate_toNat c).2] at hlow
    cases hlow
  | pair hc =>
    obtain rfl := Option.some_inj.1 hm
    rw [(isSurrogate_highOf hc).2] at hlow
    cases hlow
  | lone =>
    obtain rfl := Option.some_inj.1 hm
    exact ⟨_, rfl, hlow⟩

theorem Coded.joinSurrogates_eq (h : Coded ss codes) (ha : Apart ss) :
    joinSurrogates codes = ss.map Symbol.shown := by
  induction h with
  | nil => rfl
  | char _ ih =>
    rw [joinSurrogates_char, ih ha.tail]
    rfl
  | pair hc _ ih =>
    rw [joinSurrogates_pair hc, ih ha.tail]
    rfl
  | @lone n ss codes hn h ih =>
    rw [joinSurrogates_lone hn ?_, ih ha.tail]
    · rfl
    · rintro m hm ⟨hhigh, hlow⟩
      obtain ⟨s, hs, hslow⟩ := h.isLow_head hm hlow
      exact List.isChain_cons.1 ha |>.1 s hs ⟨hhigh, hslow⟩

end joining

theorem Writes.decode_eq (h : Writes q raw ss) (ha : Apart ss) :
    decode raw = ss.map Symbol.shown :=
  (h.coded (Nat.lt_succ_self _)).joinSurrogates_eq ha

theorem apart_map_char (cs : List Char) : Apart (cs.map .char) := by
  apply List.Pairwise.isChain
  exact List.pairwise_map.2 (List.pairwise_of_forall fun _ _ h ↦ Bool.false_ne_true h.1)

section lengths

theorem length_joinSurrogates_cons (a : Nat) (codes : List Nat) :
    (joinSurrogates codes).length ≤ (joinSurrogates (a :: codes)).length ∧
      (joinSurrogates (a :: codes)).length ≤ (joinSurrogates codes).length + 1 := by
  induction codes generalizing a with
  | nil => simp [joinSurrogates]
  | cons b r ih =>
    have hnext := ih b
    rw [joinSurrogates]
    split
    · simp only [List.length_cons]
      omega
    · simp only [List.length_cons]
      omega

theorem Coded.length_joinSurrogates (h : Coded ss codes) :
    (joinSurrogates codes).length ≤ ss.length := by
  induction h with
  | nil => exact Nat.le_refl 0
  | char _ ih =>
    rw [joinSurrogates_char]
    exact Nat.succ_le_succ ih
  | pair hc _ ih =>
    rw [joinSurrogates_pair hc]
    exact Nat.succ_le_succ ih
  | @lone n ss codes _ _ ih =>
    exact Nat.le_trans (length_joinSurrogates_cons n codes).2 (Nat.succ_le_succ ih)

theorem WritesCode.length_pos (h : WritesCode n form) : 0 < form.length := by
  cases h <;> exact Nat.succ_pos _

theorem Writes.length_le (h : Writes q raw ss) :
    ss.length ≤ raw.length ∧ ('\\' ∈ raw → ss.length < raw.length) := by
  induction h with
  | nil => exact ⟨Nat.le_refl 0, nofun⟩
  | @itself c raw ss hc _ ih =>
    refine ⟨Nat.succ_le_succ ih.1, fun hmem ↦ Nat.succ_lt_succ (ih.2 ?_)⟩
    rcases List.mem_cons.1 hmem with rfl | hmem
    · simp [isPlain] at hc
    · exact hmem
  | letter | identity | lineFeed | carriageReturn =>
    simp only [List.length_cons]
    omega
  | code hf | lone _ hf =>
    have hpos := hf.length_pos
    simp only [List.length_cons, List.length_append]
    omega
  | pair _ hh hl =>
    have hpos := hh.length_pos
    simp only [List.length_cons, List.length_append]
    omega

theorem Writes.of_isPlain (h : ∀ c ∈ raw, isPlain q c = true) :
    Writes q raw (raw.map .char) := by
  induction raw with
  | nil => exact .nil
  | cons c raw ih =>
    exact .itself (h c List.mem_cons_self) (ih fun x hx ↦ h x (List.mem_cons_of_mem _ hx))

theorem Writes.eq_map_char (h : Writes q raw ss) (hraw : '\\' ∉ raw) : ss = raw.map .char := by
  induction h with
  | nil => rfl
  | itself _ _ ih => rw [ih fun hmem ↦ hraw (List.mem_cons_of_mem _ hmem), List.map_cons]
  | letter | identity | code | pair | lone | lineFeed | carriageReturn =>
    exact absurd List.mem_cons_self hraw

theorem Writes.decode_eq_self_iff (h : Writes q raw ss) : decode raw = raw ↔ '\\' ∉ raw := by
  constructor
  · intro heq hmem
    have hshort : (decode raw).length ≤ ss.length :=
      (h.coded (Nat.lt_succ_self _)).length_joinSurrogates
    rw [heq] at hshort
    exact absurd (h.length_le.2 hmem) (Nat.not_lt.2 hshort)
  · intro hmem
    obtain rfl := h.eq_map_char hmem
    have hid : Symbol.shown ∘ Symbol.char = id := rfl
    rw [h.decode_eq (apart_map_char raw), List.map_map, hid, List.map_id]

end lengths

/-- A string between quotes, or a template without substitutions, with what stands inside. -/
inductive Quotes (n : Node) : Char → List Char → Prop
  | string {q : Char} {raw : List Char} (hk : n.kind = .string) (hq : q = '\'' ∨ q = '\"')
      (ht : n.text.toList = q :: (raw ++ [q])) : Quotes n q raw
  | template {raw : List Char} (hk : n.kind = .template)
      (hs : ∀ c ∈ n.children, c.kind ≠ .substitution)
      (ht : n.text.toList = '\x60' :: (raw ++ ['\x60'])) : Quotes n '\x60' raw

theorem unwrap_eq_self {n : Node} (h : isTransparent n.kind = false) : n.unwrap = n := by
  obtain ⟨k, r, l, a, b, t, cs⟩ := n
  rw [Node.unwrap, if_neg (by simpa using h)]

theorem Quotes.stringValue_eq {n : Node} (h : Quotes n q raw) :
    stringValue n = some (String.ofList (decode raw)) := by
  unfold stringValue
  cases h with
  | string hk _ ht =>
    have hn : n.unwrap = n := unwrap_eq_self (by rw [hk]; rfl)
    simp only [hn, hk, unquoted, ht, List.drop_one, List.tail_cons, List.dropLast_concat]
  | template hk hs ht =>
    have hn : n.unwrap = n := unwrap_eq_self (by rw [hk]; rfl)
    have hany : n.children.any (·.kind == .substitution) = false := by simpa using hs
    simp only [hn, hk, hany, unquoted, ht, List.drop_one, List.tail_cons, List.dropLast_concat]
    rfl

/-- The value of a literal is the text that it writes, in whichever way each character is written;
surrogates without partner are replaced and change nothing else. -/
theorem stringValue_of_writes {n : Node} (hn : Quotes n q raw) :
    (∀ s : String, Writes q raw (s.toList.map .char) → stringValue n = some s) ∧
      ∀ ss, Writes q raw ss → Apart ss →
        stringValue n = some (String.ofList (ss.map Symbol.shown)) := by
  have hvalue (ss : List Symbol) (h : Writes q raw ss) (ha : Apart ss) :
      stringValue n = some (String.ofList (ss.map Symbol.shown)) := by
    rw [hn.stringValue_eq, h.decode_eq ha]
  refine ⟨fun s h ↦ ?_, hvalue⟩
  rw [hvalue _ h (apart_map_char _), List.map_map]
  have hid : Symbol.shown ∘ Symbol.char = id := rfl
  rw [hid, List.map_id, String.ofList_toList]

/-- Two ways to write a character above `\uffff`, a continued line, and a surrogate alone. -/
theorem stringValue_of_writes_mixed :
    let raw := "a\\n\\u\x7b01F600\x7d\\ud83d\\u\x7bDE00\x7d\\\n\\'\\xe9\\ud800b".toList
    let n : Node := { kind := .string, text := String.ofList ('\'' :: (raw ++ ['\''])) }
    let ss : List Symbol := [.char 'a', .char '\n', .char '😀', .char '😀', .char '\'', .char 'é',
      .lone 0xd800, .char 'b']
    Quotes n '\'' raw ∧ Writes '\'' raw ss ∧ Apart ss ∧
      stringValue n = some "a\n😀😀'é\ufffdb" := by
  intro raw n ss
  have hn : Quotes n '\'' raw := .string rfl (.inl rfl) String.toList_ofList
  have hraw : Writes '\'' raw ss := by
    refine .itself rfl (.letter (by decide) ?_)
    have hdigits {ds : List Char} (h : ds.all isHexDigit = true) : ∀ x ∈ ds, isHexDigit x = true :=
      List.all_eq_true.1 h
    refine .code (@WritesCode.braced _ "01F600".toList (by decide) (hdigits rfl) (by decide)) ?_
    refine .pair (by decide) (.four (hdigits rfl) (by decide))
      (@WritesCode.braced _ "DE00".toList (by decide) (hdigits rfl) (by decide)) ?_
    refine .lineFeed (.identity (by decide) (.code (.two (hdigits rfl) (by decide)) ?_))
    exact .lone (by decide) (.four (hdigits rfl) (by decide)) (.itself rfl .nil)
  have ha : Apart ss := by
    unfold Apart
    decide
  exact ⟨hn, hraw, ha, (stringValue_of_writes hn).2 ss hraw ha⟩

end CommandCoverage.Script
