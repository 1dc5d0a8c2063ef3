import CommandCoverage.Invocation.Tokens
import Mathlib.Data.List.TakeWhile

namespace CommandCoverage.Invocation

open Text (isDigit)

structure IsDigits (ds : List Char) : Prop where
  ne_nil : ds ≠ []
  digits : ∀ d ∈ ds, isDigit d = true

inductive IsMantissa : List Char → Prop
  | whole {ds : List Char} (h : IsDigits ds) : IsMantissa ds
  | pointed {ds fs : List Char} (h : IsDigits ds) (hf : ∀ d ∈ fs, isDigit d = true) :
      IsMantissa (ds ++ '.' :: fs)
  | fraction {fs : List Char} (h : IsDigits fs) : IsMantissa ('.' :: fs)

def IsSign (s : List Char) : Prop := s = [] ∨ s = ['-'] ∨ s = ['+']

inductive IsExponent : List Char → Prop
  | absent : IsExponent []
  | present {c : Char} {s ds : List Char} (hc : c = 'e' ∨ c = 'E') (hs : IsSign s)
      (h : IsDigits ds) : IsExponent (c :: (s ++ ds))

def WritesNumber (cs : List Char) : Prop := ∃ m e, IsMantissa m ∧ IsExponent e ∧ cs = m ++ e

/-- The grammar of values: no dash at the start, the dash alone, or a dash and a number. -/
def CanBeValue (t : String) : Prop :=
  ¬ ['-'] <+: t.toList ∨ t = "-" ∨ ∃ n, WritesNumber n ∧ t.toList = '-' :: n

variable {cs ds fs s e m n r : List Char} {c : Char} {t : String}

section digits

theorem IsDigits.head (h : IsDigits ds) (r : List Char) : (ds ++ r).head?.any isDigit = true := by
  obtain ⟨d, ds, rfl⟩ := List.exists_cons_of_ne_nil h.ne_nil
  exact h.digits d List.mem_cons_self

theorem dropWhile_digits (hd : ∀ d ∈ ds, isDigit d = true) (hr : r.head?.any isDigit = false) :
    (ds ++ r).dropWhile isDigit = r := by
  rw [List.dropWhile_append_of_pos hd]
  cases r with
  | nil => rfl
  | cons c r => exact List.dropWhile_cons_of_neg (by simpa using hr)

theorem exists_digits (cs : List Char) :
    ∃ ds, (∀ d ∈ ds, isDigit d = true) ∧ cs = ds ++ cs.dropWhile isDigit :=
  ⟨cs.takeWhile isDigit, fun _ hd ↦ List.mem_takeWhile_imp hd,
    (List.takeWhile_append_dropWhile ..).symm⟩

theorem exists_digits_of_head (h : cs.head?.any isDigit = true) :
    ∃ ds, IsDigits ds ∧ cs = ds ++ cs.dropWhile isDigit := by
  obtain ⟨ds, hds, hcs⟩ := exists_digits cs
  refine ⟨ds, ⟨?_, hds⟩, hcs⟩
  intro hnil
  cases cs with
  | nil => cases h
  | cons c cs =>
    have hc : isDigit c = true := by simpa using h
    have hlength := congrArg List.length hcs
    have hle := (List.dropWhile_sublist isDigit (l := cs)).length_le
    rw [hnil, List.nil_append, List.dropWhile_cons_of_pos hc, List.length_cons] at hlength
    omega

end digits

section mantissa

structure Stops (r : List Char) : Prop where
  digit : r.head?.any isDigit = false
  point : r.head? ≠ some '.'

theorem head_point (r : List Char) : ('.' :: r).head?.any isDigit = false := by
  rw [List.head?_cons]
  decide

theorem afterDigits_append (hm : IsMantissa m) (hr : Stops r) : afterDigits (m ++ r) = some r := by
  cases hm with
  | whole h =>
    rw [afterDigits, if_pos (h.head r), dropWhile_digits h.digits hr.digit]
    simp [hr.point]
  | @pointed ds fs h hf =>
    rw [List.append_assoc, afterDigits, if_pos (h.head _), List.cons_append,
      dropWhile_digits h.digits (head_point _)]
    simp [dropWhile_digits hf hr.digit]
  | @fraction fs h =>
    have hpoint := Bool.eq_false_iff.1 (head_point (fs ++ r))
    have hfraction : (('.' :: (fs ++ r)).head? == some '.' &&
        ('.' :: (fs ++ r)).tail.head?.any isDigit) = true :=
      Bool.and_eq_true_iff.2 ⟨rfl, h.head r⟩
    rw [List.cons_append, afterDigits, if_neg hpoint, if_pos hfraction, List.tail_cons,
      dropWhile_digits h.digits hr.digit]

theorem exists_mantissa (h : afterDigits cs = some r) : ∃ m, IsMantissa m ∧ cs = m ++ r := by
  unfold afterDigits at h
  split at h
  · rename_i hhead
    obtain ⟨ds, hds, hcs⟩ := exists_digits_of_head hhead
    obtain rfl := Option.some_inj.1 h
    split
    · rename_i hpoint
      obtain ⟨rest, hrest⟩ := List.head?_eq_some_iff.1 (beq_iff_eq.1 hpoint)
      obtain ⟨fs, hfs, heq⟩ := exists_digits rest
      refine ⟨ds ++ '.' :: fs, .pointed hds hfs, ?_⟩
      rw [hrest, List.tail_cons, List.append_assoc, List.cons_append, ← heq, ← hrest]
      exact hcs
    · exact ⟨ds, .whole hds, hcs⟩
  · split at h
    · rename_i hpoint
      obtain ⟨hpoint, hhead⟩ := Bool.and_eq_true_iff.1 hpoint
      obtain ⟨rest, rfl⟩ := List.head?_eq_some_iff.1 (beq_iff_eq.1 hpoint)
      obtain ⟨fs, hfs, heq⟩ := exists_digits_of_head hhead
      obtain rfl := Option.some_inj.1 h
      exact ⟨'.' :: fs, .fraction hfs, congrArg ('.' :: ·) heq⟩
    · cases h

end mantissa

section exponent

structure Ends (r : List Char) : Prop extends Stops r where
  letter : r.head? ≠ some 'e' ∧ r.head? ≠ some 'E'

theorem tail_of_sign (hs : IsSign s) (h : IsDigits ds) (r : List Char) :
    (if (s ++ (ds ++ r)).head? == some '-' || (s ++ (ds ++ r)).head? == some '+' then
      (s ++ (ds ++ r)).tail else s ++ (ds ++ r)) = ds ++ r := by
  rcases hs with rfl | rfl | rfl
  · obtain ⟨d, ds, rfl⟩ := List.exists_cons_of_ne_nil h.ne_nil
    have hd := h.digits d List.mem_cons_self
    have hminus : d ≠ '-' := fun heq ↦ absurd (heq ▸ hd) (by decide)
    have hplus : d ≠ '+' := fun heq ↦ absurd (heq ▸ hd) (by decide)
    simp [hminus, hplus]
  · rfl
  · rfl

theorem exists_sign (r : List Char) : ∃ s, IsSign s ∧
    r = s ++ if r.head? == some '-' || r.head? == some '+' then r.tail else r := by
  split
  · rename_i h
    cases r with
    | nil => cases h
    | cons c r =>
      have hc : c = '-' ∨ c = '+' := by simpa using h
      refine ⟨[c], ?_, rfl⟩
      rcases hc with rfl | rfl
      · exact .inr (.inl rfl)
      · exact .inr (.inr rfl)
  · exact ⟨[], .inl rfl, rfl⟩

theorem afterExponent_append (he : IsExponent e) (hr : Ends r) : afterExponent (e ++ r) = r := by
  cases he with
  | absent =>
    cases r with
    | nil => rfl
    | cons c r =>
      have hletter : ¬ (c == 'e' || c == 'E') = true := by simpa using hr.letter
      rw [List.nil_append, afterExponent, if_neg hletter]
  | @present c s ds hc hs h =>
    have hletter : (c == 'e' || c == 'E') = true := by simpa using hc
    rw [List.cons_append, List.append_assoc, afterExponent, if_pos hletter, tail_of_sign hs h r]
    dsimp only
    rw [if_pos (h.head r), dropWhile_digits h.digits hr.digit]

theorem exists_exponent (cs : List Char) : ∃ e, IsExponent e ∧ cs = e ++ afterExponent cs := by
  cases cs with
  | nil => exact ⟨[], .absent, rfl⟩
  | cons c r =>
    rw [afterExponent]
    split
    · rename_i hletter
      have hc : c = 'e' ∨ c = 'E' := by simpa using hletter
      obtain ⟨s, hs, hr⟩ := exists_sign r
      dsimp only
      generalize (if r.head? == some '-' || r.head? == some '+' then r.tail else r) = rest at hr ⊢
      split
      · rename_i hdigit
        obtain ⟨ds, hds, hrest⟩ := exists_digits_of_head hdigit
        refine ⟨c :: (s ++ ds), .present hc hs hds, ?_⟩
        rw [List.cons_append, List.append_assoc, ← hrest, ← hr]
      · exact ⟨[], .absent, rfl⟩
    · exact ⟨[], .absent, rfl⟩

end exponent

section number

theorem IsExponent.stops (he : IsExponent e) (hr : Ends r) : Stops (e ++ r) := by
  cases he with
  | absent => exact hr.toStops
  | @present c s ds hc hs h =>
    rcases hc with rfl | rfl
    · exact ⟨by rw [List.cons_append, List.head?_cons]; decide, by simp⟩
    · exact ⟨by rw [List.cons_append, List.head?_cons]; decide, by simp⟩

theorem ends_of_lineFeed (hr : r = [] ∨ r = ['\n']) : Ends r := by
  rcases hr with rfl | rfl
  · exact ⟨⟨rfl, by simp⟩, by simp⟩
  · exact ⟨⟨by decide, by simp⟩, by simp⟩

theorem isNumber_eq_true_iff : isNumber cs = true ↔
    ∃ q, afterDigits cs = some q ∧ (afterExponent q = [] ∨ afterExponent q = ['\n']) := by
  rw [isNumber]
  cases afterDigits cs with
  | none => simp
  | some q =>
    rw [Option.map_some]
    split
    · simp_all
    · simp_all
    · simp_all

theorem isNumber_iff : isNumber cs = true ↔
    ∃ n r, WritesNumber n ∧ (r = [] ∨ r = ['\n']) ∧ cs = n ++ r := by
  rw [isNumber_eq_true_iff]
  constructor
  · intro h
    obtain ⟨q, hq, hr⟩ := h
    obtain ⟨m, hm, rfl⟩ := exists_mantissa hq
    obtain ⟨e, he, heq⟩ := exists_exponent q
    refine ⟨m ++ e, afterExponent q, ⟨m, e, hm, he, rfl⟩, hr, ?_⟩
    rw [List.append_assoc, ← heq]
  · intro h
    obtain ⟨_, r, ⟨m, e, hm, he, rfl⟩, hr, rfl⟩ := h
    have hends := ends_of_lineFeed hr
    refine ⟨e ++ r, ?_, ?_⟩
    · rw [List.append_assoc, afterDigits_append hm (he.stops hends)]
    · rwa [afterExponent_append he hends]

theorem not_mem_digits (hd : ∀ d ∈ ds, isDigit d = true) : '\n' ∉ ds := by
  intro h
  exact absurd (hd '\n' h) (by decide)

theorem WritesNumber.not_mem (h : WritesNumber n) : '\n' ∉ n := by
  obtain ⟨m, e, hm, he, rfl⟩ := h
  have hmantissa : '\n' ∉ m := by
    cases hm with
    | whole h => exact not_mem_digits h.digits
    | pointed h hf => simp [not_mem_digits h.digits, not_mem_digits hf]
    | fraction h => simp [not_mem_digits h.digits]
  have hexponent : '\n' ∉ e := by
    cases he with
    | absent => simp
    | @present c s ds hc hs h =>
      have hletter : '\n' ≠ c := by rcases hc with rfl | rfl <;> decide
      have hsign : '\n' ∉ s := by rcases hs with rfl | rfl | rfl <;> decide
      simp [hletter, hsign, not_mem_digits h.digits]
  rw [List.mem_append]
  exact not_or.2 ⟨hmantissa, hexponent⟩

end number

section value

def HasLineFeed (t : String) : Prop := ∃ n, WritesNumber n ∧ t.toList = '-' :: (n ++ ['\n'])

theorem canBeValue_of_dash (ht : t.toList = '-' :: r) : CanBeValue t ↔ r = [] ∨ WritesNumber r := by
  have hdash : t = "-" ↔ r = [] := by
    rw [← String.toList_inj, ht]
    simp
  simp [CanBeValue, ht, hdash]

theorem isOptionValue_of_dash (ht : t.toList = '-' :: r) :
    isOptionValue t = true ↔ r = [] ∨ isNumber r = true := by
  rw [isOptionValue, ht]
  simp

theorem isOptionValue_of_not_dash (h : ¬ ['-'] <+: t.toList) : isOptionValue t = true := by
  unfold isOptionValue
  split
  · rename_i r ht
    exact absurd ⟨r, ht.symm⟩ h
  · rfl

theorem HasLineFeed.not_canBeValue (h : HasLineFeed t) : ¬ CanBeValue t := by
  obtain ⟨n, -, ht⟩ := h
  rw [canBeValue_of_dash ht]
  intro hor
  rcases hor with hnil | hnumber
  · simp at hnil
  · exact hnumber.not_mem (by simp)

/-- What is accepted beside the grammar is a negative number with a line feed behind it. -/
theorem isOptionValue_iff : isOptionValue t = true ↔ CanBeValue t ∨ HasLineFeed t := by
  by_cases h : ['-'] <+: t.toList
  · obtain ⟨r, ht⟩ := h
    have ht : t.toList = '-' :: r := ht.symm
    rw [isOptionValue_of_dash ht, canBeValue_of_dash ht, isNumber_iff, HasLineFeed, ht, or_assoc]
    apply or_congr_right
    constructor
    · intro h
      obtain ⟨n, l, hn, rfl | rfl, rfl⟩ := h
      · exact .inl (by rwa [List.append_nil])
      · exact .inr ⟨n, hn, rfl⟩
    · intro h
      rcases h with hn | ⟨n, hn, hr⟩
      · exact ⟨r, [], hn, .inl rfl, (List.append_nil r).symm⟩
      · exact ⟨n, ['\n'], hn, .inr rfl, List.tail_eq_of_cons_eq hr⟩
  · exact iff_of_true (isOptionValue_of_not_dash h) (.inl (.inl h))

/-- A token is accepted as a value as the grammar says, unless a line feed stands behind a negative
number. -/
theorem isOptionValue_eq_grammar_iff (t : String) :
    (isOptionValue t = true ↔ CanBeValue t) ↔ ¬ HasLineFeed t := by
  constructor
  · intro h hfeed
    exact hfeed.not_canBeValue (h.1 (isOptionValue_iff.2 (.inr hfeed)))
  · intro hfeed
    rw [isOptionValue_iff, or_iff_left hfeed]

theorem lineFeed_accepted : isOptionValue "-1\n" = true ∧ ¬ CanBeValue "-1\n" := by
  have hone : isDigit '1' = true := by decide
  have hdigits : IsDigits ['1'] := ⟨by simp, by simpa using hone⟩
  have hfeed : HasLineFeed "-1\n" := ⟨['1'], ⟨['1'], [], .whole hdigits, .absent, rfl⟩, rfl⟩
  exact ⟨by decide, hfeed.not_canBeValue⟩

end value

end CommandCoverage.Invocation
