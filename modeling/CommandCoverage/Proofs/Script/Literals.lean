import CommandCoverage.Proofs.Invocation.Calls
import CommandCoverage.Proofs.Script.Escapes
import CommandCoverage.Proofs.Script.Numerals

namespace CommandCoverage.Script

def wrappers : List Kind := [.parenthesized, .await, .asType, .satisfies, .nonNull]

/-- The nodes that write a value. Comments may stand between elements and ahead of a wrapped term.
A decimal has as many digits as `fits` allows. -/
inductive Denotes (fits : Nat → Prop) : Node → Value → Prop
  | null {n : Node} (hk : n.kind = .nullLiteral) : Denotes fits n .null
  | bool {n : Node} {b : Bool} (hk : n.kind = if b then .trueLiteral else .falseLiteral) :
      Denotes fits n (.bool b)
  | text {n : Node} {q : Char} {raw : List Char} {s : String} (hn : Quotes n q raw)
      (hw : Writes q raw (s.toList.map .char)) : Denotes fits n (.text s)
  | integer {n : Node} {k : Nat} (hk : n.kind = .number) (hw : WritesInteger fits n.text.toList k) :
      Denotes fits n (.int k)
  | minus {n m : Node} {k : Int} (hk : n.kind = .unary) (ht : n.text.toList.head? = some '-')
      (hm : n.children.head? = some m) (h : Denotes fits m (.int k)) : Denotes fits n (.int (-k))
  | wrapped {n m : Node} {v : Value} (hk : n.kind ∈ wrappers) (hm : n.parts.head? = some m)
      (h : Denotes fits m v) : Denotes fits n v
  | array {n : Node} {vs : List Value} (hk : n.kind = .array) (hl : n.parts.length = vs.length)
      (h : ∀ m v, (m, v) ∈ n.parts.zip vs → Denotes fits m v) : Denotes fits n (.list vs)

def valueKinds : List Kind :=
  [.nullLiteral, .trueLiteral, .falseLiteral, .string, .template, .number, .unary, .array,
    .parenthesized, .await, .asType, .satisfies, .nonNull, .typeAssertion]

/-- No literal: a name, a spread, a call, an object or another such node, a template with a
substitution, or one of these in wrappers. -/
inductive NoLiteral : Node → Prop
  | other {n : Node} (hk : n.kind ∉ valueKinds) : NoLiteral n
  | template {n c : Node} (hk : n.kind = .template) (hc : c ∈ n.children)
      (hs : c.kind = .substitution) : NoLiteral n
  | wrapped {n m : Node} (hk : n.kind ∈ wrappers) (hm : n.parts.head? = some m)
      (h : NoLiteral m) : NoLiteral n

/-- The second node is an array with the first one as an element, or with an element that holds
it. -/
inductive Holds (e : Node) : Node → Prop
  | element {a : Node} (hk : a.kind = .array) (he : e ∈ a.parts) : Holds e a
  | nested {a b : Node} (hk : a.kind = .array) (hb : b ∈ a.parts) (h : Holds e b) : Holds e a
  | wrapped {a b : Node} (hk : a.kind ∈ wrappers) (hb : a.parts.head? = some b) (h : Holds e b) :
      Holds e a

variable {fits : Nat → Prop} {n m e : Node} {v : Value} {q : Char} {raw : List Char} {s : String}

section values

theorem literalFirst_eq (outer : Node) (ns : List Node) : literalFirst outer ns =
    (ns.filter (·.kind != .comment)).head?.bind literalValue := by
  induction ns with
  | nil => rfl
  | cons n ns ih =>
    rw [literalFirst]
    by_cases hcomment : n.kind = .comment
    · rw [if_pos (by simpa using hcomment), List.filter_cons_of_neg (by simpa using hcomment), ih]
    · rw [if_neg (by simpa using hcomment), List.filter_cons_of_pos (by simpa using hcomment),
        List.head?_cons, Option.bind_some]

theorem literalValue_wrapped (hk : n.kind ∈ wrappers) (hm : n.parts.head? = some m) :
    literalValue n = literalValue m := by
  obtain ⟨k, r, l, a, b, t, cs⟩ := n
  have htransparent : isTransparent k = true := by
    have hall : ∀ k ∈ wrappers, isTransparent k = true := by decide
    exact hall k hk
  rw [literalValue.eq_def]
  dsimp only
  rw [if_pos htransparent, literalFirst_eq]
  exact congrArg (·.bind literalValue) hm

theorem literalValue_unary (hk : n.kind = .unary) : literalValue n =
    if n.text.toList.head? == some '-' then (n.children.head?.bind literalValue).bind negated
    else none := by
  obtain ⟨k, r, l, a, b, t, cs⟩ := n
  obtain rfl : k = .unary := hk
  have hhead : literalHead cs = cs.head?.bind literalValue := by cases cs <;> rfl
  rw [literalValue, if_neg (by decide), hhead]

theorem literalValue_number (hk : n.kind = .number) : literalValue n = numberValue n.text := by
  obtain ⟨k, r, l, a, b, t, cs⟩ := n
  obtain rfl : k = .number := hk
  rw [literalValue, if_neg (by decide)]

theorem literalValue_null (hk : n.kind = .nullLiteral) : literalValue n = some .null := by
  obtain ⟨k, r, l, a, b, t, cs⟩ := n
  obtain rfl : k = .nullLiteral := hk
  rw [literalValue, if_neg (by decide)]

theorem literalValue_bool {b : Bool} (hk : n.kind = if b then .trueLiteral else .falseLiteral) :
    literalValue n = some (.bool b) := by
  obtain ⟨k, r, l, i, j, t, cs⟩ := n
  cases b with
  | false =>
    obtain rfl : k = .falseLiteral := hk
    rw [literalValue, if_neg (by decide)]
  | true =>
    obtain rfl : k = .trueLiteral := hk
    rw [literalValue, if_neg (by decide)]

theorem literalValue_quotes (hn : Quotes n q raw) (hw : Writes q raw (s.toList.map .char)) :
    literalValue n = some (.text s) := by
  have hshown : Symbol.shown ∘ Symbol.char = id := rfl
  rw [Node.literalValue_eq_text_iff, hn.stringValue_eq, hw.decode_eq (apart_map_char _),
    List.map_map, hshown, List.map_id, String.ofList_toList]

theorem literalValue_template (hk : n.kind = .template) :
    literalValue n = (stringValue n).map .text := by
  obtain ⟨k, r, l, a, b, t, cs⟩ := n
  obtain rfl : k = .template := hk
  rw [literalValue, if_neg (by decide)]

theorem stringValue_of_substitution (hk : n.kind = .template) (hm : m ∈ n.children)
    (hs : m.kind = .substitution) : stringValue n = none := by
  have hn : n.unwrap = n := unwrap_eq_self (by rw [hk]; rfl)
  have hany : n.children.any (·.kind == .substitution) = true :=
    List.any_eq_true.2 ⟨m, hm, by simp [hs]⟩
  simp only [stringValue, hn, hk, hany, if_true]

theorem literalValue_array_eq_some_iff {vs : List Value} (hk : n.kind = .array) :
    literalValue n = some (.list vs) ↔ n.parts.length = vs.length ∧
      ∀ m v, (m, v) ∈ n.parts.zip vs → literalValue m = some v := by
  rw [Node.literalValue_array hk, Option.map_eq_some_iff]
  simp only [Value.list.injEq, exists_eq_right, Node.literalAll_eq_some_iff]
  exact List.forall₂_iff_zip

theorem literalValue_array_eq_none (hk : n.kind = .array) (hm : m ∈ n.parts)
    (h : literalValue m = none) : literalValue n = none := by
  rw [Node.literalValue_array hk, Option.map_eq_none_iff, Option.eq_none_iff_forall_ne_some]
  intro vs hvs
  have hall : List.Forall₂ (fun n v ↦ literalValue n = some v) n.parts vs :=
    Node.literalAll_eq_some_iff.1 hvs
  obtain ⟨i, hi, rfl⟩ := List.getElem_of_mem hm
  have hvalue := hall.get hi (hall.length_eq ▸ hi)
  rw [List.get_eq_getElem, h] at hvalue
  cases hvalue

end values

section writing

theorem Denotes.literalValue_eq (h : Denotes (· ≤ longestInteger) n v) :
    literalValue n = some v := by
  induction h with
  | null hk => exact literalValue_null hk
  | bool hk => exact literalValue_bool hk
  | text hn hw => exact literalValue_quotes hn hw
  | integer hk hw => rw [literalValue_number hk, hw.numberValue_eq]
  | minus hk ht hm _ ih =>
    rw [literalValue_unary hk, ht, hm, Option.bind_some, ih]
    rfl
  | wrapped hk hm _ ih => rw [literalValue_wrapped hk hm, ih]
  | array hk hl _ ih => exact (literalValue_array_eq_some_iff hk).2 ⟨hl, ih⟩

theorem Denotes.short_or_float {k : Int} (h : Denotes fits n (.int k)) :
    Denotes (· ≤ longestInteger) n (.int k) ∨ ∃ x, literalValue n = some (.float x) := by
  generalize hv : Value.int k = v at h
  induction h generalizing k with
  | null | bool | text | array => cases hv
  | integer hk hw =>
    obtain rfl := Value.int.inj hv
    rw [literalValue_number hk]
    exact hw.short_or_float.imp_left (.integer hk)
  | minus hk ht hm _ ih =>
    obtain rfl := Value.int.inj hv
    refine (ih rfl).imp (.minus hk ht hm) ?_
    rintro ⟨x, hx⟩
    refine ⟨-x, ?_⟩
    rw [literalValue_unary hk, ht, hm, Option.bind_some, hx]
    rfl
  | wrapped hk hm _ ih =>
    rw [literalValue_wrapped hk hm]
    exact (ih hv).imp_left (.wrapped hk hm)

theorem Denotes.short_of_literalValue (h : Denotes fits n v) (hv : literalValue n = some v) :
    Denotes (· ≤ longestInteger) n v := by
  have hinteger {n : Node} {k : Int} (h : Denotes fits n (.int k))
      (hv : literalValue n = some (.int k)) : Denotes (· ≤ longestInteger) n (.int k) := by
    refine h.short_or_float.resolve_right ?_
    rintro ⟨x, hx⟩
    rw [hv] at hx
    cases hx
  induction h with
  | null hk => exact .null hk
  | bool hk => exact .bool hk
  | text hn hw => exact .text hn hw
  | integer hk hw => exact hinteger (.integer hk hw) hv
  | minus hk ht hm h => exact hinteger (.minus hk ht hm h) hv
  | wrapped hk hm _ ih => exact .wrapped hk hm (ih (literalValue_wrapped hk hm ▸ hv))
  | array hk hl _ ih =>
    have hall := ((literalValue_array_eq_some_iff hk).1 hv).2
    exact .array hk hl fun m v hmem ↦ ih m v hmem (hall m v hmem)

theorem NoLiteral.literalValue_eq (h : NoLiteral n) : literalValue n = none := by
  induction h with
  | @other n hk =>
    obtain ⟨k, r, l, a, b, t, cs⟩ := n
    have htransparent : isTransparent k = false := by
      have hall : ∀ k, isTransparent k = true → k ∈ valueKinds := by
        intro k hk
        cases k <;> first | decide | cases hk
      exact Bool.eq_false_iff.2 fun h ↦ hk (hall k h)
    rw [literalValue.eq_def]
    dsimp only
    rw [if_neg (by simp [htransparent])]
    split <;> simp_all [valueKinds]
  | template hk hc hs =>
    rw [literalValue_template hk, stringValue_of_substitution hk hc hs, Option.map_none]
  | wrapped hk hm _ ih => rw [literalValue_wrapped hk hm, ih]

theorem Holds.literalValue_eq (h : Holds e n) (he : literalValue e = none) :
    literalValue n = none := by
  induction h with
  | element hk hmem => exact literalValue_array_eq_none hk hmem he
  | nested hk hb _ ih => exact literalValue_array_eq_none hk hb ih
  | wrapped hk hb _ ih => rw [literalValue_wrapped hk hb, ih]

end writing

/-- A node that writes a value is read as this value, unless there is a decimal of more than 4300
digits in it. An array that holds something that is no literal has no value. -/
theorem literalValue_eq_iff_of_denotes (n : Node) :
    (∀ v, Denotes (fun _ ↦ True) n v →
      (literalValue n = some v ↔ Denotes (· ≤ longestInteger) n v)) ∧
    ∀ e, Holds e n → NoLiteral e → literalValue n = none :=
  ⟨fun _ h ↦ ⟨h.short_of_literalValue, Denotes.literalValue_eq⟩,
    fun _ h he ↦ h.literalValue_eq he.literalValue_eq⟩

def mixedArray (last : Node) : Node where
  kind := .array
  children := [
    { kind := .comment },
    { kind := .unary, text := "- -0xF_f", children := [
      { kind := .unary, text := "-0xF_f", children := [{ kind := .number, text := "0xF_f" }] }] },
    { kind := .parenthesized, children := [
      { kind := .comment },
      { kind := .await, children := [{ kind := .template, text := "\x60a\\n\x60" }] }] },
    { kind := .array, children := [{ kind := .nullLiteral }, { kind := .comment }, last] }]

theorem literalValue_mixedArray :
    let v : Value := .list [.int 255, .text "a\n", .list [.null, .int 0]]
    let a := mixedArray { kind := .number, text := "0" }
    let b := mixedArray { kind := .identifier, text := "x" }
    Denotes (fun _ ↦ True) a v ∧ literalValue a = some v ∧
      Holds { kind := .identifier, text := "x" } b ∧
      NoLiteral { kind := .identifier, text := "x" } ∧ literalValue b = none := by
  intro v a b
  have hdigits : Numeral 16 ['F', '_', 'f'] 255 :=
    .separated (.digit (d := 15) (by decide) (by decide)) (d := 15) (by decide) (by decide)
  have hnumber (fits : Nat → Prop) : WritesInteger fits "0xF_f".toList 255 :=
    .based (show ('x', 16) ∈ baseSigns by decide) hdigits
  have htext : Writes '\x60' ['a', '\\', 'n'] ("a\n".toList.map .char) :=
    .itself rfl (.letter (by decide) .nil)
  have ha (fits : Nat → Prop) : Denotes fits a v := by
    have harray {n : Node} {vs : List Value} (hk : n.kind = .array)
        (h : List.Forall₂ (Denotes fits) n.parts vs) : Denotes fits n (.list vs) :=
      .array hk h.length_eq fun _ _ hmem ↦ (List.forall₂_iff_zip.1 h).2 hmem
    refine harray rfl (.cons ?integer (.cons ?text (.cons ?array .nil)))
    case integer =>
      exact .minus (k := -255) rfl rfl rfl (.minus rfl rfl rfl (.integer rfl (hnumber fits)))
    case text =>
      exact .wrapped (by decide) rfl (.wrapped (by decide) rfl
        (.text (.template rfl (by simp) rfl) htext))
    case array => exact harray rfl (.cons (.null rfl) (.cons (.integer rfl .zero) .nil))
  have hname : NoLiteral { kind := .identifier, text := "x" } := .other (by decide)
  have hb : Holds { kind := .identifier, text := "x" } b :=
    .nested rfl (b := { kind := .array, children := [{ kind := .nullLiteral }, { kind := .comment },
      { kind := .identifier, text := "x" }] }) (by simp [b, mixedArray, Node.parts])
      (.element rfl (by simp [Node.parts]))
  exact ⟨ha _, ((literalValue_eq_iff_of_denotes a).1 v (ha _)).2 (ha _), hb, hname,
    (literalValue_eq_iff_of_denotes b).2 _ hb hname⟩

def ones (k : Nat) : Node := { kind := .number, text := String.ofList (List.replicate k '1') }

theorem exists_numeral_ones (k : Nat) : ∃ n, Numeral 10 (List.replicate (k + 1) '1') n := by
  induction k with
  | zero => exact ⟨1, .digit (by decide) (by decide)⟩
  | succ k ih =>
    obtain ⟨n, hn⟩ := ih
    rw [List.replicate_succ']
    exact ⟨10 * n + 1, hn.next (by decide) (by decide)⟩

theorem exists_ones_not_read {k : Nat} (h : longestInteger < k + 1) :
    ∃ n : Nat, Denotes (fun _ ↦ True) (ones (k + 1)) (.int n) ∧
      literalValue (ones (k + 1)) ≠ some (.int n) := by
  obtain ⟨n, hn⟩ := exists_numeral_ones k
  have htext : (ones (k + 1)).text.toList = List.replicate (k + 1) '1' := String.toList_ofList
  have hhead : (List.replicate (k + 1) '1').head? ≠ some '0' := by simp [List.replicate_succ]
  have hlength : longestInteger < (withoutSeparators (List.replicate (k + 1) '1')).length := by
    simpa [withoutSeparators] using h
  rw [← htext] at hn hhead hlength
  refine ⟨n, .integer rfl (.decimal hn hhead trivial), ?_⟩
  obtain ⟨x, hx⟩ := hn.exists_float hhead hlength
  rw [literalValue_number rfl, hx]
  simp

theorem exists_integer_not_read : ∃ n : Nat,
    Denotes (fun _ ↦ True) (ones 4301) (.int n) ∧ literalValue (ones 4301) ≠ some (.int n) :=
  exists_ones_not_read (by decide)

end CommandCoverage.Script
