import CommandCoverage.Script.Program

namespace CommandCoverage.Script

namespace Cursor

def Fits (c : Cursor) : Prop := c.rest.length ≤ c.size

variable {c : Cursor} {m n : Nat}

@[simp] theorem rest_advance (n : Nat) (c : Cursor) : (c.advance n).rest = c.rest.drop n := by
  induction n generalizing c with
  | zero => rfl
  | succ n ih =>
    rw [advance]
    split
    · rename_i h
      simp [h]
    · rename_i h
      simp [ih, h]

@[simp] theorem size_advance (n : Nat) (c : Cursor) : (c.advance n).size = c.size := by
  induction n generalizing c with
  | zero => rfl
  | succ n ih =>
    rw [advance]
    split
    · rfl
    · exact ih _

@[simp] theorem comments_advance (n : Nat) (c : Cursor) :
    (c.advance n).comments = c.comments := by
  induction n generalizing c with
  | zero => rfl
  | succ n ih =>
    rw [advance]
    split
    · rfl
    · exact ih _

theorem offset_advance (h : n ≤ c.rest.length) : (c.advance n).offset = c.offset + n := by
  induction n generalizing c with
  | zero => rfl
  | succ n ih =>
    rw [advance]
    split
    · rename_i hr
      simp [hr] at h
    · rename_i hr
      rw [hr, List.length_cons, Nat.add_le_add_iff_right] at h
      rw [ih h]
      dsimp only
      omega

theorem advance_advance (m n : Nat) (c : Cursor) :
    (c.advance m).advance n = c.advance (m + n) := by
  induction m generalizing c with
  | zero => rw [Nat.zero_add]; rfl
  | succ m ih =>
    rw [Nat.succ_add, advance, advance]
    cases hr : c.rest with
    | nil =>
      cases n with
      | zero => rfl
      | succ n => rw [advance, hr]
    | cons ch r => exact ih _

theorem Fits.advance (h : c.Fits) (n : Nat) : (c.advance n).Fits := by
  unfold Fits at h ⊢
  rw [rest_advance, size_advance, List.length_drop]
  omega

theorem skipBlanks_blank {b t : List Char} (hb : ∀ ch ∈ b, isBlank ch = true)
    (ht : t.head?.all (fun ch ↦ !isBlank ch && ch != '/') = true) (hn : b.length < n)
    (hc : c.rest = b ++ t) : skipBlanks n c = c.advance b.length := by
  induction b generalizing n c with
  | nil =>
    obtain ⟨n, rfl⟩ := Nat.exists_eq_add_one_of_ne_zero (Nat.ne_zero_of_lt hn)
    rw [skipBlanks]
    rw [List.nil_append] at hc
    cases t with
    | nil => rw [hc]; rfl
    | cons ch t =>
      simp only [List.head?_cons, Option.all_some, Bool.and_eq_true, Bool.not_eq_true',
        bne_iff_ne] at ht
      have hcomment : commentLength (ch :: t) = none := by
        unfold commentLength
        split <;> simp_all
      simp only [hc, ht.1, hcomment]
      rfl
  | cons ch b ih =>
    obtain ⟨n, rfl⟩ := Nat.exists_eq_add_one_of_ne_zero (Nat.ne_zero_of_lt hn)
    have hch : isBlank ch = true := hb ch List.mem_cons_self
    have hrest : (c.advance 1).rest = b ++ t := by
      rw [rest_advance, hc]
      rfl
    have hskip := ih (fun x hx ↦ hb x (List.mem_cons_of_mem _ hx)) (by simpa using hn) hrest
    rw [skipBlanks, hc]
    simp only [List.cons_append, hch, if_true]
    rw [hskip, advance_advance, List.length_cons, Nat.add_comm]

end Cursor

def Blank (b : List Char) : Prop := ∀ ch ∈ b, isBlank ch = true

instance (b : List Char) : Decidable (Blank b) :=
  decidable_of_iff (b.all isBlank = true) List.all_eq_true

theorem blank_nil : Blank [] := List.forall_mem_nil _

def Settled (t : List Char) : Prop := t.head?.all (fun ch ↦ !isBlank ch && ch != '/') = true

theorem settled_of_head {t : List Char} {ch : Char} (h : t.head? = some ch)
    (hch : (!isBlank ch && ch != '/') = true) : Settled t := by
  rw [Settled, h]
  exact hch

theorem Cursor.next_eq {c : Cursor} {b t : List Char} (hf : c.Fits) (hc : c.rest = b ++ t)
    (hb : Blank b) (ht : Settled t) : c.next = c.advance b.length := by
  refine skipBlanks_blank hb ht ?_ hc
  have hlength : b.length ≤ c.rest.length := by simp [hc]
  exact Nat.lt_succ_of_le (Nat.le_trans hlength hf)

namespace Parser

variable {α β : Type} {p q : Parser α} {f : α → Parser β} {b r s t : List Char} {a : α}
  {P Q : α → Prop} {R : β → Prop} {kind : Kind} {c : Cursor}

/-- Where `s` is ahead of `r`, the parser ends between them with something as `P` says. -/
def Reads (p : Parser α) (s r : List Char) (P : α → Prop) : Prop :=
  ∀ c : Cursor, c.Fits → c.rest = s ++ r → ∃ a, p c = some (a, c.advance s.length) ∧ P a

def Refuses (p : Parser α) (t : List Char) : Prop :=
  ∀ c : Cursor, c.Fits → c.rest = t → p c = none

theorem bind_apply (p : Parser α) (f : α → Parser β) (c : Cursor) :
    (p >>= f) c = (p c).bind fun x ↦ f x.1 x.2 := rfl

theorem orElse_apply (p q : Parser α) (c : Cursor) : (p <|> q) c = (p c).or (q c) := by
  change (p c <|> q c) = _
  cases p c <;> rfl

theorem rest_of_advance (hc : c.rest = s ++ t) : (c.advance s.length).rest = t := by
  rw [Cursor.rest_advance, hc, List.drop_left]

theorem Reads.mono (h : Reads p s r P) (hPQ : ∀ a, P a → Q a) : Reads p s r Q := by
  intro c hf hc
  obtain ⟨a, hp, ha⟩ := h c hf hc
  exact ⟨a, hp, hPQ a ha⟩

theorem Reads.cast (h : Reads p s r P) (hs : s = t) : Reads p t r P := hs ▸ h

theorem Reads.pure (ha : P a) : Reads (pure a) [] r P := fun _ _ _ ↦ ⟨a, rfl, ha⟩

theorem reads_pure : Reads (Pure.pure a) [] r (· = a) := .pure rfl

theorem Reads.bind (h : Reads p s (t ++ r) P) (hf : ∀ a, P a → Reads (f a) t r R) :
    Reads (p >>= f) (s ++ t) r R := by
  intro c hfits hc
  rw [List.append_assoc] at hc
  obtain ⟨a, hp, ha⟩ := h c hfits hc
  obtain ⟨x, hx, hR⟩ := hf a ha _ (hfits.advance _) (rest_of_advance hc)
  refine ⟨x, ?_, hR⟩
  rw [bind_apply, hp, Option.bind_some, hx, Cursor.advance_advance, List.length_append]

theorem Reads.seq (h : Reads p s (t ++ r) P) {q : Parser β} (hq : Reads q t r R) :
    Reads (p *> q) (s ++ t) r R :=
  h.bind fun _ _ ↦ hq

theorem Reads.map {g : α → β} (h : Reads p s r P) (hg : ∀ a, P a → R (g a)) :
    Reads (g <$> p) s r R := by
  intro c hf hc
  obtain ⟨a, hp, ha⟩ := h c hf hc
  refine ⟨g a, ?_, hg a ha⟩
  change (p c).bind _ = _
  rw [hp]
  rfl

theorem Reads.orElse_left (h : Reads p s r P) : Reads (p <|> q) s r P := by
  intro c hf hc
  obtain ⟨a, hp, ha⟩ := h c hf hc
  exact ⟨a, by rw [orElse_apply, hp, Option.some_or], ha⟩

theorem Reads.orElse_right (hp : Refuses p (s ++ r)) (h : Reads q s r P) :
    Reads (p <|> q) s r P := by
  intro c hf hc
  rw [orElse_apply, hp c hf hc, Option.none_or]
  exact h c hf hc

theorem Refuses.bind (h : Refuses p t) : Refuses (p >>= f) t := by
  intro c hf hc
  rw [bind_apply, h c hf hc, Option.bind_none]

theorem Refuses.after (h : Reads p s t P) (hf : ∀ a, P a → Refuses (f a) t) :
    Refuses (p >>= f) (s ++ t) := by
  intro c hfits hc
  obtain ⟨a, hp, ha⟩ := h c hfits hc
  rw [bind_apply, hp, Option.bind_some]
  exact hf a ha _ (hfits.advance _) (rest_of_advance hc)

theorem Refuses.seq (h : Refuses p t) {q : Parser β} : Refuses (p *> q) t := h.bind

theorem Refuses.map (h : Refuses p t) {g : α → β} : Refuses (g <$> p) t := by
  intro c hf hc
  change (p c).bind _ = _
  rw [h c hf hc]
  rfl

theorem Refuses.orElse (hp : Refuses p t) (hq : Refuses q t) : Refuses (p <|> q) t := by
  intro c hf hc
  rw [orElse_apply, hp c hf hc, hq c hf hc]
  rfl

theorem refuses_failure : Refuses (failure : Parser α) t := fun _ _ _ ↦ rfl

theorem reads_guard {b : Bool} (h : b = true) : Reads (guard b) [] r fun _ ↦ True := by
  rw [guard, if_pos h]
  exact .pure trivial

theorem Reads.then_nil (h : Reads p s r P) (hf : ∀ a, P a → Reads (f a) [] r R) :
    Reads (p >>= f) s r R :=
  (Reads.bind h hf).cast (List.append_nil s)

theorem Reads.nil_then (h : Reads p [] (s ++ r) P) (hf : ∀ a, P a → Reads (f a) s r R) :
    Reads (p >>= f) s r R :=
  (Reads.bind h hf).cast (List.nil_append s)

theorem Reads.returns {g : α → β} (h : Reads p s r P) (hg : ∀ a, P a → R (g a)) :
    Reads (p >>= fun a ↦ Pure.pure (g a)) s r R :=
  h.then_nil fun a ha ↦ .pure (hg a ha)

theorem Reads.guarded {b : Bool} {f : Unit → Parser β} (hb : b = true) (h : Reads (f ()) s r R) :
    Reads (guard b >>= f) s r R :=
  (reads_guard hb).nil_then fun _ _ ↦ h

theorem refuses_guard {b : Bool} (h : b = false) : Refuses (guard b) t := by
  rw [guard, h]
  exact refuses_failure

theorem Refuses.guarded {b : Bool} {f : Unit → Parser β} (h : Refuses (f ()) t) :
    Refuses (guard b >>= f) t := by
  cases b with
  | false => exact (refuses_guard rfl).bind
  | true => exact .after (s := []) (reads_guard rfl) fun _ _ ↦ h

theorem reads_get : Reads get [] r fun c ↦ c.Fits ∧ c.rest = r :=
  fun c hf hc ↦ ⟨c, rfl, hf, hc⟩

theorem reads_chars (s r : List Char) : Reads (chars s.length) s r fun _ ↦ True :=
  fun _ _ _ ↦ ⟨(), rfl, trivial⟩

theorem Reads.ahead (h : Reads p s r P) : Reads (ahead p) [] (s ++ r) fun _ ↦ True := by
  intro c hf hc
  obtain ⟨a, hp, -⟩ := h c hf hc
  exact ⟨(), by rw [Parser.ahead, hp]; rfl, trivial⟩

theorem Refuses.ahead (h : Refuses p t) : Refuses (Parser.ahead p) t := by
  intro c hf hc
  rw [Parser.ahead, h c hf hc]
  rfl

theorem Reads.optional (h : Reads p s r P) :
    Reads (Parser.optional p) s r fun o ↦ ∃ a, o = some a ∧ P a :=
  .orElse_left (h.map fun a ha ↦ ⟨a, rfl, ha⟩)

theorem Refuses.optional (h : Refuses p r) : Reads (Parser.optional p) [] r (· = none) :=
  .orElse_right h.map (.pure rfl)

theorem Reads.taken (h : Reads p s r P) : Reads (Parser.taken p) s r (· = true) :=
  .orElse_left (h.then_nil fun _ _ ↦ reads_pure)

theorem Refuses.taken (h : Refuses p r) : Reads (Parser.taken p) [] r (· = false) :=
  .orElse_right h.seq reads_pure

section repeating

def Repeats (p : Parser α) (s r : List Char) (P : List α → Prop) : Prop :=
  ∀ n, s.length ≤ n → ∀ acc, Reads (manyUpTo p n acc) s r fun as ↦
    ∃ items, as = acc.reverse ++ items ∧ P items

theorem Refuses.repeats (h : Refuses p r) : Repeats p [] r (· = []) := by
  intro n _ acc c hf hc
  refine ⟨acc.reverse, ?_, [], by simp, rfl⟩
  cases n with
  | zero => rfl
  | succ n =>
    rw [manyUpTo, h c hf hc]
    rfl

theorem Reads.repeats {L : List α → Prop} (h : Reads p s (t ++ r) P) (hs : s ≠ [])
    (hrest : Repeats p t r L) :
    Repeats p (s ++ t) r fun items ↦ ∃ a rest, items = a :: rest ∧ P a ∧ L rest := by
  intro n hn acc c hf hc
  have hpos : 0 < s.length := List.length_pos_iff.2 hs
  rw [List.length_append] at hn
  obtain ⟨n, rfl⟩ : ∃ k, n = k + 1 := ⟨n - 1, by omega⟩
  rw [List.append_assoc] at hc
  obtain ⟨a, hp, ha⟩ := h c hf hc
  have hle : s.length ≤ c.rest.length := by simp [hc]
  -- the loop goes on only where an item has moved the cursor
  have hmoved : c.offset < (c.advance s.length).offset := by
    rw [Cursor.offset_advance hle]
    omega
  obtain ⟨as, has, items, rfl, hL⟩ :=
    hrest n (by omega) (a :: acc) _ (hf.advance _) (rest_of_advance hc)
  rw [List.reverse_cons, List.append_assoc, List.singleton_append] at has
  refine ⟨acc.reverse ++ a :: items, ?_, a :: items, rfl, a, items, rfl, ha, hL⟩
  rw [manyUpTo, hp]
  dsimp only
  rw [if_pos hmoved, has, Cursor.advance_advance, List.length_append]

theorem Repeats.mono {L M : List α → Prop} (h : Repeats p s r L) (hLM : ∀ as, L as → M as) :
    Repeats p s r M :=
  fun n hn acc ↦ (h n hn acc).mono fun _ ⟨items, has, hL⟩ ↦ ⟨items, has, hLM items hL⟩

theorem Repeats.reads {L : List α → Prop} (h : Repeats p s r L) : Reads (many p) s r L := by
  intro c hf hc
  have hle : s.length ≤ c.rest.length := by simp [hc]
  obtain ⟨as, has, items, rfl, hL⟩ :=
    h (c.size + 1) (Nat.le_succ_of_le (Nat.le_trans hle hf)) [] c hf hc
  exact ⟨_, has, hL⟩

theorem Refuses.many (h : Refuses p r) : Reads (many p) [] r (· = []) := h.repeats.reads

variable {step : α → Parser α}

def Grows (step : α → Parser α) (a : α) (s r : List Char) (P : α → Prop) : Prop :=
  ∀ n, s.length ≤ n → Reads (growUpTo step n a) s r P

theorem Refuses.grows (h : Refuses (step a) r) (ha : P a) : Grows step a [] r P := by
  intro n _ c hf hc
  refine ⟨a, ?_, ha⟩
  cases n with
  | zero => rfl
  | succ n =>
    rw [growUpTo, h c hf hc]
    rfl

theorem Reads.grows (h : Reads (step a) s (t ++ r) P) (hs : s ≠ [])
    (hrest : ∀ x, P x → Grows step x t r Q) : Grows step a (s ++ t) r Q := by
  intro n hn c hf hc
  have hpos : 0 < s.length := List.length_pos_iff.2 hs
  rw [List.length_append] at hn
  obtain ⟨n, rfl⟩ : ∃ k, n = k + 1 := ⟨n - 1, by omega⟩
  rw [List.append_assoc] at hc
  obtain ⟨x, hp, hx⟩ := h c hf hc
  obtain ⟨y, hy, hQ⟩ := hrest x hx n (by omega) _ (hf.advance _) (rest_of_advance hc)
  refine ⟨y, ?_, hQ⟩
  rw [growUpTo, hp]
  dsimp only
  rw [hy, Cursor.advance_advance, List.length_append]

theorem Grows.mono (h : Grows step a s r P) (hPQ : ∀ a, P a → Q a) : Grows step a s r Q :=
  fun n hn ↦ (h n hn).mono hPQ

theorem Grows.reads (h : Grows step a s r P) : Reads (grow step a) s r P := by
  intro c hf hc
  have hle : s.length ≤ c.rest.length := by simp [hc]
  exact h (c.size + 1) (Nat.le_succ_of_le (Nat.le_trans hle hf)) c hf hc

theorem Refuses.grow (h : Refuses (step a) r) : Reads (grow step a) [] r (· = a) :=
  (h.grows (P := (· = a)) rfl).reads

end repeating

section places

theorem reads_place (hb : Blank b) (ht : Settled t) :
    Reads place b t fun start ↦ start.Fits ∧ start.rest = t := by
  intro c hf hc
  have hnext := Cursor.next_eq hf hc hb ht
  refine ⟨c.next, by rw [place, hnext], hnext ▸ hf.advance _, ?_⟩
  rw [hnext, rest_of_advance hc]

theorem reads_upcoming (hb : Blank b) (ht : Settled (s ++ r)) :
    Reads upcoming [] (b ++ s ++ r) (· = s ++ r) := by
  intro c hf hc
  rw [List.nil_append, List.append_assoc] at hc
  refine ⟨s ++ r, ?_, rfl⟩
  rw [upcoming, Cursor.next_eq hf hc hb ht, rest_of_advance hc]
  rfl

theorem breaksLine_eq (hf : c.Fits) (hc : c.rest = b ++ t) (hb : Blank b) (ht : Settled t) :
    c.breaksLine = b.any fun ch ↦ ch != '\r' && isLineBreak ch := by
  have hle : b.length ≤ c.rest.length := by simp [hc]
  rw [Cursor.breaksLine, Cursor.next_eq hf hc hb ht, Cursor.offset_advance hle,
    Nat.add_sub_cancel_left, hc, List.take_left]

theorem reads_sameLine (hb : Blank b) (hl : (b.any fun ch ↦ ch != '\r' && isLineBreak ch) = false)
    (ht : Settled t) : Reads sameLine [] (b ++ t) fun _ ↦ True := by
  intro c hf hc
  rw [List.nil_append] at hc
  refine ⟨(), ?_, trivial⟩
  rw [sameLine, breaksLine_eq hf hc hb ht, hl]
  rfl

theorem Refuses.sameLine {f : Unit → Parser β} (h : Refuses (f ()) t) :
    Refuses (Parser.sameLine >>= f) t := by
  intro c hf hc
  rw [bind_apply, Parser.sameLine]
  split
  · rfl
  · exact h c hf hc

structure IsNode (kind : Kind) (children : List Node) (n : Node) : Prop where
  kind : n.kind = kind
  role : n.role = none
  children : n.children = children

theorem Reads.nodeFrom {p : Parser (List Node)} {L : List Node → Prop} (h : Reads p s r L)
    (start : Cursor) :
    Reads (nodeFrom start kind p) s r fun n ↦ ∃ ns, IsNode kind ns n ∧ L ns := by
  refine h.then_nil fun ns hns ↦ reads_get.returns fun e _ ↦ ?_
  exact ⟨ns, ⟨rfl, rfl, rfl⟩, hns⟩

/-- A node spans the text of its parts, without the blanks ahead. -/
theorem Reads.node {p : Parser (List Node)} {L : List Node → Prop} (hb : Blank b)
    (ht : Settled (s ++ r)) (h : Reads p s r L) :
    Reads (node kind p) (b ++ s) r fun n ↦
      n.text = String.ofList s ∧ ∃ ns, IsNode kind ns n ∧ L ns := by
  intro c hf hc
  rw [List.append_assoc] at hc
  have hnext := Cursor.next_eq hf hc hb ht
  have hrest := rest_of_advance hc
  obtain ⟨ns, hp, hL⟩ := h _ (hf.advance b.length) hrest
  refine ⟨(c.advance b.length).node kind ((c.advance b.length).advance s.length) ns, ?_, ?_,
    ns, ⟨rfl, rfl, rfl⟩, hL⟩
  · rw [Parser.node, bind_apply, place, hnext, Option.bind_some, bind_apply, hp, List.length_append,
      ← Cursor.advance_advance]
    rfl
  · have hle : s.length ≤ (c.advance b.length).rest.length := by
      rw [hrest]
      simp
    have htake : (s ++ r).take ((c.advance b.length).offset + s.length -
        (c.advance b.length).offset) = s := by
      rw [Nat.add_sub_cancel_left, List.take_left]
    rw [Cursor.node, Cursor.offset_advance hle, hrest, htake]

theorem Refuses.node {p : Parser (List Node)} (hb : Blank b) (ht : Settled t)
    (h : Refuses p t) : Refuses (node kind p) (b ++ t) :=
  .after (reads_place hb ht) fun _ _ ↦ h.bind

theorem Reads.leaf (hb : Blank b) (ht : Settled (s ++ r)) (h : Reads p s r P) :
    Reads (leaf kind p) (b ++ s) r fun n ↦ n.text = String.ofList s ∧ IsNode kind [] n := by
  have hparts : Reads (p *> Pure.pure []) s r (· = ([] : List Node)) :=
    h.then_nil fun _ _ ↦ reads_pure
  refine (hparts.node hb ht).mono ?_
  rintro n ⟨htext, ns, hn, rfl⟩
  exact ⟨htext, hn⟩

theorem Refuses.leaf (hb : Blank b) (ht : Settled t) (h : Refuses p t) :
    Refuses (leaf kind p) (b ++ t) :=
  h.seq.node hb ht

end places

end Parser

end CommandCoverage.Script
