import CommandCoverage.Script.Literal
import Mathlib.Data.List.TakeWhile

namespace CommandCoverage.Script

def digitChars : List (Char × Nat) :=
  [('0', 0), ('1', 1), ('2', 2), ('3', 3), ('4', 4), ('5', 5), ('6', 6), ('7', 7), ('8', 8),
    ('9', 9), ('a', 10), ('b', 11), ('c', 12), ('d', 13), ('e', 14), ('f', 15), ('A', 10),
    ('B', 11), ('C', 12), ('D', 13), ('E', 14), ('F', 15)]

/-- A row of digits with single underscores between them, and the number that it writes. -/
inductive Numeral (base : Nat) : List Char → Nat → Prop
  | digit {c : Char} {d : Nat} (hc : (c, d) ∈ digitChars) (hd : d < base) : Numeral base [c] d
  | next {c : Char} {d n : Nat} {cs : List Char} (h : Numeral base cs n)
      (hc : (c, d) ∈ digitChars) (hd : d < base) : Numeral base (cs ++ [c]) (base * n + d)
  | separated {c : Char} {d n : Nat} {cs : List Char} (h : Numeral base cs n)
      (hc : (c, d) ∈ digitChars) (hd : d < base) : Numeral base (cs ++ ['_', c]) (base * n + d)

def baseSigns : List (Char × Nat) :=
  [('x', 16), ('X', 16), ('o', 8), ('O', 8), ('b', 2), ('B', 2)]

def withoutSeparators (cs : List Char) : List Char := cs.filter (· != '_')

/-- A natural number without a sign. A decimal has no zeros ahead, and as many digits as `fits`
allows. -/
inductive WritesInteger (fits : Nat → Prop) : List Char → Nat → Prop
  | zero : WritesInteger fits ['0'] 0
  | decimal {cs : List Char} {n : Nat} (h : Numeral 10 cs n) (hz : cs.head? ≠ some '0')
      (hf : fits (withoutSeparators cs).length) : WritesInteger fits cs n
  | based {sign : Char} {base n : Nat} {cs : List Char} (hs : (sign, base) ∈ baseSigns)
      (h : Numeral base cs n) : WritesInteger fits ('0' :: sign :: cs) n

def digitNumber (c : Char) : Nat :=
  if isDigit c then c.toNat - 48 else if isHexDigit c then c.toNat % 32 + 9 else 99

variable {base n d : Nat} {c : Char} {cs ds : List Char} {fits : Nat → Prop} {s : String}

section digits

theorem digitsValue_eq (base : Nat) (ds : List Char) : digitsValue base ds =
    if ds.isEmpty || ds.any (fun d ↦ base ≤ digitNumber d) then none
    else some (ds.foldl (fun n d ↦ base * n + digitNumber d) 0) := rfl

theorem digitsValue_eq_some_iff : digitsValue base ds = some n ↔ ds ≠ [] ∧
    (∀ d ∈ ds, digitNumber d < base) ∧ ds.foldl (fun n d ↦ base * n + digitNumber d) 0 = n := by
  rw [digitsValue_eq]
  split
  · rename_i h
    simp only [reduceCtorEq, false_iff]
    rintro ⟨hne, hlt, -⟩
    simp only [Bool.or_eq_true, List.isEmpty_iff, List.any_eq_true, decide_eq_true_eq] at h
    rcases h with h | ⟨d, hd, hle⟩
    · exact hne h
    · exact absurd (hlt d hd) (Nat.not_lt.2 hle)
  · rename_i h
    simp_all

theorem digitsValue_concat (h : digitsValue base ds = some n) (hc : digitNumber c < base) :
    digitsValue base (ds ++ [c]) = some (base * n + digitNumber c) := by
  obtain ⟨-, hlt, hn⟩ := digitsValue_eq_some_iff.1 h
  refine digitsValue_eq_some_iff.2 ⟨by simp, ?_, by simp [hn]⟩
  intro x hx
  rcases List.mem_append.1 hx with hx | hx
  · exact hlt x hx
  · rwa [List.mem_singleton.1 hx]

theorem digitNumber_of_mem (hc : (c, d) ∈ digitChars) :
    digitNumber c = d ∧ c ≠ '_' ∧ (d < 10 → isDigit c = true) := by
  have hall : ∀ x ∈ digitChars, digitNumber x.1 = x.2 ∧ x.1 ≠ '_' ∧
      (x.2 < 10 → isDigit x.1 = true) := by decide
  exact hall _ hc

theorem withoutSeparators_concat (hc : c ≠ '_') :
    withoutSeparators (cs ++ [c]) = withoutSeparators cs ++ [c] ∧
      withoutSeparators (cs ++ ['_', c]) = withoutSeparators cs ++ [c] := by
  simp [withoutSeparators, List.filter_append, hc]

theorem Numeral.digitsValue_eq (h : Numeral base cs n) :
    digitsValue base (withoutSeparators cs) = some n := by
  induction h with
  | @digit c d hc hd =>
    obtain ⟨rfl, hne, -⟩ := digitNumber_of_mem hc
    exact digitsValue_eq_some_iff.2 (by simpa [withoutSeparators, hne] using hd)
  | next _ hc hd ih =>
    obtain ⟨rfl, hne, -⟩ := digitNumber_of_mem hc
    rw [(withoutSeparators_concat hne).1]
    exact digitsValue_concat ih hd
  | separated _ hc hd ih =>
    obtain ⟨rfl, hne, -⟩ := digitNumber_of_mem hc
    rw [(withoutSeparators_concat hne).2]
    exact digitsValue_concat ih hd

theorem Numeral.exists_cons (h : Numeral base cs n) : ∃ c r, cs = c :: r ∧ c ≠ '_' := by
  induction h with
  | @digit c _ hc => exact ⟨c, [], rfl, (digitNumber_of_mem hc).2.1⟩
  | next | separated =>
    rename_i ih
    obtain ⟨x, r, rfl, hx⟩ := ih
    exact ⟨x, _, rfl, hx⟩

theorem Numeral.head?_withoutSeparators (h : Numeral base cs n) :
    (withoutSeparators cs).head? = cs.head? := by
  obtain ⟨c, r, rfl, hc⟩ := h.exists_cons
  simp [withoutSeparators, hc]

theorem Numeral.isDigit (h : Numeral 10 cs n) :
    ∀ c ∈ withoutSeparators cs, Script.isDigit c = true := by
  induction h with
  | digit hc hd =>
    obtain ⟨-, hne, hdigit⟩ := digitNumber_of_mem hc
    simpa [withoutSeparators, hne] using hdigit hd
  | next _ hc hd ih =>
    obtain ⟨-, hne, hdigit⟩ := digitNumber_of_mem hc
    rw [(withoutSeparators_concat hne).1]
    simpa [or_imp, forall_and] using ⟨ih, hdigit hd⟩
  | separated _ hc hd ih =>
    obtain ⟨-, hne, hdigit⟩ := digitNumber_of_mem hc
    rw [(withoutSeparators_concat hne).2]
    simpa [or_imp, forall_and] using ⟨ih, hdigit hd⟩

end digits

section reading

theorem integerValue_of_head (h : ds.head? ≠ some '0') :
    integerValue ds = if ds.length ≤ longestInteger then digitsValue 10 ds else none := by
  unfold integerValue
  split
  · simp at h
  · rfl

theorem integerValue_of_sign {sign : Char} (h : (sign, base) ∈ baseSigns) (ds : List Char) :
    integerValue ('0' :: sign :: ds) = digitsValue base ds := by
  simp only [baseSigns, List.mem_cons, Prod.mk.injEq, List.not_mem_nil, or_false] at h
  rcases h with ⟨rfl, rfl⟩ | ⟨rfl, rfl⟩ | ⟨rfl, rfl⟩ | ⟨rfl, rfl⟩ | ⟨rfl, rfl⟩ | ⟨rfl, rfl⟩ <;> rfl

theorem decimalValue_of_digits (hd : ∀ c ∈ ds, isDigit c = true) (h : digitsValue 10 ds = some n) :
    decimalValue ds = some ⟨n, 0⟩ := by
  have hwhole : ds.takeWhile isDigit = ds := List.takeWhile_eq_self_iff.2 hd
  simp [decimalValue, hwhole, h]

theorem WritesInteger.numberValue_eq (h : WritesInteger (· ≤ longestInteger) s.toList n) :
    numberValue s = some (.int n) := by
  have hread {k : Nat} (hk : integerValue (withoutSeparators s.toList) = some k) :
      numberValue s = some (.int k) := by
    unfold withoutSeparators at hk
    simp only [numberValue, hk]
  apply hread
  generalize s.toList = cs at h
  cases h with
  | zero => decide
  | decimal h hz hf =>
    rw [integerValue_of_head (h.head?_withoutSeparators ▸ hz), if_pos hf, h.digitsValue_eq]
  | @based sign base _ cs hs h =>
    have hsign : sign ≠ '_' := by
      rintro rfl
      simp [baseSigns] at hs
    have hdigits : withoutSeparators ('0' :: sign :: cs) = '0' :: sign :: withoutSeparators cs := by
      simp [withoutSeparators, hsign]
    rw [hdigits, integerValue_of_sign hs, h.digitsValue_eq]

theorem Numeral.exists_float (h : Numeral 10 s.toList n) (hz : s.toList.head? ≠ some '0')
    (hlength : longestInteger < (withoutSeparators s.toList).length) :
    ∃ x, numberValue s = some (.float x) := by
  have hinteger : integerValue (withoutSeparators s.toList) = none := by
    rw [integerValue_of_head (h.head?_withoutSeparators ▸ hz), if_neg (Nat.not_le.2 hlength)]
  have hdecimal := decimalValue_of_digits h.isDigit h.digitsValue_eq
  unfold withoutSeparators at hinteger hdecimal
  refine ⟨(⟨n, 0⟩ : Decimal).toFloat, ?_⟩
  simp only [numberValue, hinteger, hdecimal, Option.map_some]

theorem WritesInteger.short_or_float (h : WritesInteger fits s.toList n) :
    WritesInteger (· ≤ longestInteger) s.toList n ∨ ∃ x, numberValue s = some (.float x) := by
  generalize hcs : s.toList = cs at h
  cases h with
  | zero => exact .inl .zero
  | based hs h => exact .inl (.based hs h)
  | decimal h hz =>
    rcases Nat.lt_or_ge longestInteger (withoutSeparators cs).length with hlong | hshort
    · subst hcs
      exact .inr (h.exists_float hz hlong)
    · exact .inl (.decimal h hz hshort)

end reading

end CommandCoverage.Script
