import CommandCoverage.Proofs.Invocation.Calls
import CommandCoverage.Proofs.Script.Escapes

namespace CommandCoverage.Script

def plainKeys : List Kind := [.propertyName, .identifier, .privateName, .number]

inductive GivesName : Kind → String → Option String → Prop
  | plain {kind : Kind} {text : String} (hk : kind ∈ plainKeys) : GivesName kind text (some text)
  | string {q : Char} {raw : List Char} {text : String} (hq : q = '\'' ∨ q = '\"')
      (ht : text.toList = q :: (raw ++ [q])) :
      GivesName .string text (some (String.ofList (decode raw)))
  | computed {text : String} : GivesName .computedKey text none

inductive HasKey (kind : Kind) (text : String) : Node → Prop
  | pair {n k v : Node} (hn : n.kind = .pair) (hk : n.part .key = some k) (hkind : k.kind = kind)
      (htext : k.text = text) (hv : n.part .value = some v) : HasKey kind text n
  | method {n k : Node} (hn : n.kind = .method) (hk : n.part .name = some k) (hkind : k.kind = kind)
      (htext : k.text = text) : HasKey kind text n

namespace Node

mutual

def placeless : Node → Node
  | ⟨k, r, _, _, _, t, cs⟩ => ⟨k, r, 1, 0, 0, t, placelessAll cs⟩

def placelessAll : List Node → List Node
  | [] => []
  | n :: ns => n.placeless :: placelessAll ns

end

end Node

/-- A child of an object literal was moved, or a pair became a method with the same key, or the
other way round. The keys of such members are of an allowed kind. -/
inductive Replaced (allowed : Kind → Prop) : Node → Node → Prop
  | moved {n n' : Node} (h : n.placeless = n'.placeless) : Replaced allowed n n'
  | form {kind : Kind} {text : String} {name : Option String} {n n' : Node} (ha : allowed kind)
      (hg : GivesName kind text name) (h : HasKey kind text n) (h' : HasKey kind text n')
      (hne : n.kind ≠ n'.kind) : Replaced allowed n n'

def LastAt (names : List (Option String)) (name : String) (i : Nat) : Prop :=
  names[i]? = some (some name) ∧ ∀ j, i < j → names[j]? ≠ some (some name)

def Hidden (names : List (Option String)) (i : Nat) : Prop :=
  ∀ name, names[i]? = some (some name) → ∃ j, i < j ∧ names[j]? = some (some name)

namespace Node

def memberName? (n : Node) : Option (Option String) := n.member?.map (·.name)

def names (obj : Node) : List (Option String) := obj.members.map (·.name)

/-- The member in this place is the last one of the name, and its node is found under the name. -/
structure Finds (obj : Node) (name : String) (i : Nat) : Prop where
  last : LastAt obj.names name i
  value : ∃ x, obj.members[i]? = some x ∧ obj.get? name = some x.node

end Node

variable {kind : Kind} {text : String} {name : Option String} {n n' obj : Node}
  {ns ns' : List Node} {allowed : Kind → Prop} {raw : List Char} {key : String} {i : Nat}
  {xs ys : List (Option String)}

section decoding

theorem length_simpleEscape (c : Char) : (simpleEscape c).length ≤ 1 := by
  unfold simpleEscape
  split
  case h_8 => split <;> simp
  all_goals exact Nat.le_refl 1

theorem length_codesUpTo (fuel : Nat) (raw : List Char) :
    (codesUpTo fuel raw).length ≤ raw.length := by
  fun_induction codesUpTo fuel raw with
  | case1 | case2 => exact Nat.zero_le _
  | case3 fuel r code k hcode ih =>
    simp only [List.length_drop] at ih
    split
    · simp only [List.length_append, List.length_cons, List.length_nil]
      omega
    · simp only [List.length_append, List.length_cons, List.length_map, List.length_take]
      omega
  | case4 => exact Nat.le_refl 1
  | case5 fuel r hcode ih =>
    simp only [List.length_cons]
    omega
  | case6 fuel c r hcode hcr ih =>
    have hescape := length_simpleEscape c
    simp only [List.length_append, List.length_cons]
    omega
  | case7 fuel c r hc ih => exact Nat.succ_le_succ ih

theorem length_joinSurrogates (codes : List Nat) :
    (joinSurrogates codes).length ≤ codes.length := by
  induction codes with
  | nil => exact Nat.le_refl 0
  | cons a codes ih => exact (length_joinSurrogates_cons a codes).2.trans (Nat.succ_le_succ ih)

theorem length_decode (raw : List Char) : (decode raw).length ≤ raw.length :=
  (length_joinSurrogates _).trans (length_codesUpTo _ raw)

end decoding

section members

theorem GivesName.eq_text_iff (h : GivesName kind text name) :
    name = some text ↔ kind ∈ plainKeys := by
  cases h with
  | plain hk => exact iff_of_true rfl hk
  | @string q raw _ hq ht =>
    refine iff_of_false ?_ (by decide)
    intro heq
    have hlength := length_decode raw
    have htext : decode raw = q :: (raw ++ [q]) := by
      rw [← ht, ← Option.some_inj.1 heq, String.toList_ofList]
    rw [htext, List.length_cons, List.length_append] at hlength
    omega
  | computed => exact iff_of_false nofun (by decide)

theorem GivesName.keyName_eq (h : GivesName n.kind n.text name) : keyName n = name := by
  generalize hkind : n.kind = kind at h
  generalize htext : n.text = text at h
  cases h with
  | plain hk =>
    simp only [plainKeys, List.mem_cons, List.not_mem_nil, or_false] at hk
    rcases hk with rfl | rfl | rfl | rfl <;> simp only [keyName, hkind, htext]
  | @string q raw _ hq ht =>
    have hquotes : Quotes n q raw := .string hkind hq (htext ▸ ht)
    simp only [keyName, hkind, hquotes.stringValue_eq]
  | computed => simp only [keyName, hkind]

theorem Node.names_eq (obj : Node) : obj.names = obj.children.filterMap memberName? :=
  List.map_filterMap

theorem HasKey.memberName?_eq (h : HasKey kind text n) (hg : GivesName kind text name) :
    n.memberName? = some (if n.kind = .pair then name else some text) := by
  cases h with
  | pair hn hk hkind htext hv =>
    subst hkind htext
    rw [if_pos hn]
    simp only [Node.memberName?, Node.member?, hn, hv, hk, Option.map_some, Option.bind_some,
      hg.keyName_eq]
  | method hn hk hkind htext =>
    subst hkind htext
    rw [if_neg (by rw [hn]; decide)]
    simp only [Node.memberName?, Node.member?, hn, hk, Option.map_some]

theorem HasKey.kind_eq (h : HasKey kind text n) : n.kind = .pair ∨ n.kind = .method := by
  cases h with
  | pair hn => exact .inl hn
  | method hn => exact .inr hn

end members

section places

namespace Node

theorem placelessAll_eq (ns : List Node) : placelessAll ns = ns.map placeless := by
  induction ns with
  | nil => rfl
  | cons n ns ih => rw [placelessAll, ih, List.map_cons]

@[simp]
theorem kind_placeless (n : Node) : n.placeless.kind = n.kind := by
  obtain ⟨k, r, l, a, b, t, cs⟩ := n
  rw [placeless]

@[simp]
theorem role_placeless (n : Node) : n.placeless.role = n.role := by
  obtain ⟨k, r, l, a, b, t, cs⟩ := n
  rw [placeless]

@[simp]
theorem text_placeless (n : Node) : n.placeless.text = n.text := by
  obtain ⟨k, r, l, a, b, t, cs⟩ := n
  rw [placeless]

theorem children_placeless (n : Node) : n.placeless.children = n.children.map placeless := by
  obtain ⟨k, r, l, a, b, t, cs⟩ := n
  rw [placeless, placelessAll_eq]

theorem part_placeless (n : Node) (r : Role) :
    n.placeless.part r = (n.part r).map placeless := by
  have hrole : (fun c : Node ↦ c.role == some r) ∘ placeless = fun c ↦ c.role == some r := by
    funext c
    simp
  rw [part, children_placeless, List.find?_map, hrole, part]

theorem ownText_placeless (n : Node) : ownText n.placeless = ownText n := by
  have hsubstitution : (fun c : Node ↦ c.kind == .substitution) ∘ placeless =
      fun c ↦ c.kind == .substitution := by
    funext c
    simp
  simp only [ownText, unquoted, kind_placeless, text_placeless, children_placeless, List.any_map,
    hsubstitution]

end Node

theorem keyName_placeless (n : Node) : keyName n.placeless = keyName n := by
  have hstring (h : isTransparent n.kind = false) : stringValue n.placeless = stringValue n := by
    rw [Node.stringValue_eq, Node.stringValue_eq, unwrap_eq_self h,
      unwrap_eq_self (by rw [Node.kind_placeless, h]), Node.ownText_placeless]
  rw [keyName, keyName, Node.kind_placeless, Node.text_placeless]
  cases hk : n.kind <;> first | rfl | exact hstring (by rw [hk]; rfl)

theorem memberName?_placeless (n : Node) : n.placeless.memberName? = n.memberName? := by
  rw [Node.memberName?, Node.memberName?, Node.member?, Node.member?, Node.kind_placeless]
  cases n.kind
  case pair => simp [Node.part_placeless, Option.map_map, Function.comp_def, keyName_placeless,
    Option.bind_map]
  case method => simp [Node.part_placeless, Option.map_map, Function.comp_def]
  all_goals simp

theorem memberName?_of_moved (h : n.placeless = n'.placeless) : n.memberName? = n'.memberName? := by
  rw [← memberName?_placeless, h, memberName?_placeless]

end places

section replacing

theorem Replaced.memberName?_eq (h : Replaced (· ∈ plainKeys) n n') :
    n.memberName? = n'.memberName? := by
  cases h with
  | moved h => exact memberName?_of_moved h
  | form ha hg h h' =>
    rw [h.memberName?_eq hg, h'.memberName?_eq hg, hg.eq_text_iff.2 ha, ite_self, ite_self]

theorem Replaced.isSome_memberName? (h : Replaced allowed n n') :
    n.memberName?.isSome = n'.memberName?.isSome := by
  cases h with
  | moved h => rw [memberName?_of_moved h]
  | form _ hg h h' => rw [h.memberName?_eq hg, h'.memberName?_eq hg, Option.isSome_some,
      Option.isSome_some]

theorem Replaced.plain (h : Replaced allowed n n') (heq : n.memberName? = n'.memberName?) :
    Replaced (· ∈ plainKeys) n n' := by
  cases h with
  | moved h => exact .moved h
  | @form kind text name _ _ _ hg h h' hne =>
    refine .form (hg.eq_text_iff.1 ?_) hg h h' hne
    rw [h.memberName?_eq hg, h'.memberName?_eq hg] at heq
    rcases h.kind_eq with hpair | hmethod
    · have hpair' : n'.kind ≠ .pair := fun h ↦ hne (hpair.trans h.symm)
      simpa [hpair, hpair'] using heq
    · have hpair' : n'.kind = .pair :=
        h'.kind_eq.resolve_right fun h ↦ hne (hmethod.trans h.symm)
      simpa [hmethod, hpair'] using heq.symm

theorem forall₂_plain_iff (h : List.Forall₂ (Replaced allowed) ns ns') :
    ns.filterMap Node.memberName? = ns'.filterMap Node.memberName? ↔
      List.Forall₂ (Replaced (· ∈ plainKeys)) ns ns' := by
  induction h with
  | nil => exact iff_of_true rfl .nil
  | @cons n n' ns ns' h _ ih =>
    rw [List.forall₂_cons, ← ih]
    have hsome := h.isSome_memberName?
    cases hn : n.memberName? with
    | none =>
      have hn' : n'.memberName? = none := by simpa [hn] using hsome
      rw [List.filterMap_cons_none hn, List.filterMap_cons_none hn']
      exact ⟨fun heq ↦ ⟨h.plain (hn.trans hn'.symm), heq⟩, And.right⟩
    | some a =>
      obtain ⟨b, hn'⟩ : ∃ b, n'.memberName? = some b := by
        rw [← Option.isSome_iff_exists, ← hsome, hn, Option.isSome_some]
      rw [List.filterMap_cons_some hn, List.filterMap_cons_some hn', List.cons.injEq]
      refine and_congr_left fun _ ↦ ⟨?_, ?_⟩
      · rintro rfl
        exact h.plain (hn.trans hn'.symm)
      · intro hplain
        have heq := hplain.memberName?_eq
        rw [hn, hn'] at heq
        exact Option.some_inj.1 heq

end replacing

section finding

theorem exists_lastAt {i : Nat} (h : xs[i]? = some (some key)) : ∃ j, i ≤ j ∧ LastAt xs key j := by
  by_cases hlater : ∃ j, i < j ∧ xs[j]? = some (some key)
  · obtain ⟨j, hij, hj⟩ := hlater
    obtain ⟨k, hjk, hk⟩ := exists_lastAt hj
    exact ⟨k, hij.le.trans hjk, hk⟩
  · exact ⟨i, le_rfl, h, fun j hij hj ↦ hlater ⟨j, hij, hj⟩⟩
termination_by xs.length - i
decreasing_by
  have hlength := (List.getElem?_eq_some_iff.1 hj).1
  omega

theorem LastAt.of_hidden (h : LastAt xs key i)
    (hh : ∀ j, xs[j]? ≠ ys[j]? → Hidden xs j ∧ Hidden ys j) : LastAt ys key i := by
  have hsame : xs[i]? = ys[i]? := by
    by_contra hne
    obtain ⟨j, hij, hj⟩ := (hh i hne).1 key h.1
    exact h.2 j hij hj
  refine ⟨hsame ▸ h.1, fun j hij hj ↦ ?_⟩
  -- The last one of the name would have changed its name, and nothing after it can hide that.
  obtain ⟨k, hjk, hk⟩ := exists_lastAt hj
  have hne : xs[k]? ≠ ys[k]? := by
    rw [hk.1]
    exact h.2 k (hij.trans_le hjk)
  obtain ⟨l, hkl, hl⟩ := (hh k hne).2 key hk.1
  exact hk.2 l hkl hl

theorem hidden_of_lastAt (hxy : ∀ key i, LastAt xs key i → LastAt ys key i)
    (hne : xs[i]? ≠ ys[i]?) : Hidden xs i := by
  intro key hkey
  obtain ⟨j, hij, hj⟩ := exists_lastAt hkey
  refine ⟨j, hij.lt_of_ne ?_, hj.1⟩
  rintro rfl
  exact hne (hj.1.trans (hxy key i hj).1.symm)

theorem lastAt_iff_iff_hidden : (∀ key i, LastAt xs key i ↔ LastAt ys key i) ↔
    ∀ i, xs[i]? ≠ ys[i]? → Hidden xs i ∧ Hidden ys i := by
  constructor
  · intro h i hne
    exact ⟨hidden_of_lastAt (fun key i ↦ (h key i).1) hne,
      hidden_of_lastAt (fun key i ↦ (h key i).2) hne.symm⟩
  · intro h key i
    exact ⟨fun hx ↦ hx.of_hidden h, fun hy ↦ hy.of_hidden fun j hne ↦ (h j hne.symm).symm⟩

theorem name_of_spread {x : Member} (h : x ∈ obj.members) (hx : x.form = .spread) :
    x.name = none := by
  obtain ⟨n, -, hn⟩ := List.mem_filterMap.1 h
  unfold Node.member? at hn
  split at hn
  case h_1 =>
    obtain ⟨v, -, rfl⟩ := Option.map_eq_some_iff.1 hn
    cases hx
  case h_3 => cases hn; rfl
  case h_5 => cases hn
  all_goals cases hn; cases hx

theorem Node.finds_iff : obj.Finds key i ↔ LastAt obj.names key i := by
  refine ⟨Finds.last, fun h ↦ ⟨h, ?_⟩⟩
  have hname (j : Nat) : obj.names[j]? = obj.members[j]?.map (·.name) := List.getElem?_map
  simp only [LastAt, hname] at h
  obtain ⟨⟨x, hx, hkey⟩, hlast⟩ := h.imp_left Option.map_eq_some_iff.1
  obtain ⟨hi, rfl⟩ := List.getElem?_eq_some_iff.1 hx
  have hsplit : obj.members = obj.members.take i ++ obj.members[i] :: obj.members.drop (i + 1) := by
    rw [← List.drop_eq_getElem_cons hi, List.take_append_drop]
  have hspread : obj.members[i].form ≠ .spread := by
    intro hform
    rw [name_of_spread (List.getElem_mem hi) hform] at hkey
    cases hkey
  refine ⟨_, hx, get?_eq_some_iff.2 ⟨_, _, _, hsplit, hspread, hkey, rfl, fun y hy ↦ .inr ?_⟩⟩
  intro hy'
  obtain ⟨j, hj⟩ := List.mem_iff_getElem?.1 hy
  rw [List.getElem?_drop] at hj
  exact hlast (i + 1 + j) (by omega) (by rw [hj, Option.map_some, hy'])

end finding

end CommandCoverage.Script
