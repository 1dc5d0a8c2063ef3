import CommandCoverage.Invocation.Search
import CommandCoverage.Proofs.Script.Places
import Mathlib.Data.List.Forall2

namespace CommandCoverage

open Script

namespace Script.Node

def BindsLast (obj : Node) (name : String) (value : Node) : Prop :=
  ∃ before m after, obj.members = before ++ m :: after ∧ m.form ≠ .spread ∧ m.name = some name ∧
    m.node = value ∧ ∀ x ∈ after, x.form = .spread ∨ x.name ≠ some name

/-- A call with an array as its first argument, or as the last member `args` of an object that is
its first argument. -/
inductive HandsOver (call : Node) : Node → Prop
  | array {first : Node} {rest : List Node} (hfirst : call.arguments = first :: rest)
      (harray : first.unwrap.kind = .array) : HandsOver call first.unwrap
  | member {first value : Node} {rest : List Node} (hfirst : call.arguments = first :: rest)
      (hobject : first.unwrap.kind = .object) (hlast : first.unwrap.BindsLast "args" value)
      (harray : value.unwrap.kind = .array) : HandsOver call value.unwrap

def Spells (array : Node) (tokens : List String) : Prop :=
  List.Forall₂ (fun element token ↦ stringValue element = some token) array.parts tokens

structure CallsRunner (runners : List String) (call array : Node) : Prop where
  kind : call.kind = .call
  callee : ∃ name, call.calleeName = some name ∧ name ∈ runners
  array : call.HandsOver array

variable {call array n outer obj value : Node} {name : String} {tokens : List String}
  {runners : List String}

theorem get?_eq_some_iff : obj.get? name = some value ↔ obj.BindsLast name value := by
  rw [get?, Option.map_eq_some_iff]
  constructor
  · rintro ⟨m, hm, rfl⟩
    obtain ⟨kept, hkept⟩ := List.getLast?_eq_some_iff.1 hm
    obtain ⟨before, rest, hmembers, -, hrest⟩ := List.filter_eq_append_iff.1 hkept
    obtain ⟨between, after, rfl, -, hp, hafter⟩ := List.filter_eq_cons_iff.1 hrest
    have hnone := List.filter_eq_nil_iff.1 hafter
    simp only [Bool.and_eq_true, bne_iff_ne, beq_iff_eq] at hp hnone
    refine ⟨before ++ between, m, after, by rw [hmembers, List.append_assoc], hp.1, hp.2, rfl, ?_⟩
    intro x hx
    by_cases hs : x.form = .spread
    · exact .inl hs
    · exact .inr fun hn ↦ hnone x hx ⟨hs, hn⟩
  · rintro ⟨before, m, after, hmembers, hform, hname, rfl, hafter⟩
    refine ⟨m, ?_, rfl⟩
    have hnone : after.filter (fun m ↦ m.form != .spread && m.name == some name) = [] := by
      rw [List.filter_eq_nil_iff]
      intro x hx
      simp only [Bool.and_eq_true, bne_iff_ne, beq_iff_eq, not_and]
      intro hs hn
      exact (hafter x hx).elim hs fun h ↦ h hn
    rw [hmembers, List.filter_append, List.filter_cons_of_pos (by simp [hform, hname]), hnone]
    simp

theorem guarded_eq_some_iff {a : Node} :
    ((guard ((a.kind == .array) = true) : Option Unit) >>= fun _ ↦ some a) = some array ↔
      a.kind = .array ∧ a = array := by
  unfold guard
  by_cases h : a.kind = .array
  · rw [if_pos (by simpa using h)]
    simp [h]
  · rw [if_neg (by simpa using h)]
    simp [h]

theorem tokenArray_eq_some_iff : tokenArray call = some array ↔ call.HandsOver array := by
  constructor
  · intro h
    obtain ⟨first, hfirst, h⟩ := Option.bind_eq_some_iff.1 h
    obtain ⟨rest, hrest⟩ := List.head?_eq_some_iff.1 hfirst
    dsimp only at h
    by_cases hobject : first.unwrap.kind = .object
    · rw [if_pos (by simpa using hobject)] at h
      obtain ⟨_, ha, h⟩ := Option.bind_eq_some_iff.1 h
      obtain ⟨value, hvalue, rfl⟩ := Option.map_eq_some_iff.1 ha
      obtain ⟨harray, rfl⟩ := guarded_eq_some_iff.1 h
      exact .member hrest hobject (get?_eq_some_iff.1 hvalue) harray
    · rw [if_neg (by simpa using hobject)] at h
      obtain ⟨harray, rfl⟩ := guarded_eq_some_iff.1 h
      exact .array hrest harray
  · intro h
    apply Option.bind_eq_some_iff.2
    cases h with
    | @array first rest hfirst harray =>
      refine ⟨first, by rw [hfirst, List.head?_cons], ?_⟩
      have hobject : ¬first.unwrap.kind = .object := by simp [harray]
      rw [if_neg (by simpa using hobject)]
      exact guarded_eq_some_iff.2 ⟨harray, rfl⟩
    | @member first value rest hfirst hobject hlast harray =>
      refine ⟨first, by rw [hfirst, List.head?_cons], ?_⟩
      rw [if_pos (by simpa using hobject)]
      refine Option.bind_eq_some_iff.2 ⟨value.unwrap, ?_, guarded_eq_some_iff.2 ⟨harray, rfl⟩⟩
      rw [get?_eq_some_iff.2 hlast, Option.map_some]

theorem HandsOver.kind_eq (h : call.HandsOver array) : array.kind = .array := by
  cases h <;> assumption

section texts

def ownText (n : Node) : Option String :=
  match n.kind with
  | .string => some (unquoted n)
  | .template => if n.children.any (·.kind == .substitution) then none else some (unquoted n)
  | _ => none

theorem stringValue_eq (n : Node) : stringValue n = ownText n.unwrap := rfl

theorem numberValue_ne_text (raw s : String) : numberValue raw ≠ some (.text s) := by
  unfold numberValue
  dsimp only
  cases integerValue (raw.toList.filter (· != '_')) with
  | some k => simp
  | none => simp

theorem negated_ne_text (x : Option Value) (s : String) : x.bind negated ≠ some (.text s) := by
  rcases x with _ | v
  · simp
  · cases v <;> simp [negated]

mutual

theorem literalValue_eq_text_iff {s : String} :
    (n : Node) → (literalValue n = some (.text s) ↔ stringValue n = some s)
  | ⟨k, r, l, a, b, t, cs⟩ => by
    rw [stringValue_eq, unwrap]
    unfold literalValue
    by_cases htransparent : isTransparent k = true
    · rw [if_pos htransparent, if_pos htransparent]
      exact literalFirst_eq_text_iff _ htransparent cs
    · rw [if_neg htransparent, if_neg htransparent]
      have hunwrap : (⟨k, r, l, a, b, t, cs⟩ : Node).unwrap = ⟨k, r, l, a, b, t, cs⟩ := by
        rw [unwrap, if_neg htransparent]
      split
      case h_1 | h_2 =>
        rw [stringValue_eq, hunwrap]
        simp
      case h_6 => simp [ownText, numberValue_ne_text]
      case h_7 => simp [ownText, negated_ne_text]
      all_goals simp [ownText]

theorem literalFirst_eq_text_iff {s : String} (outer : Node)
    (h : isTransparent outer.kind = true) : (ns : List Node) →
      (literalFirst outer ns = some (.text s) ↔ ownText (unwrapFirst outer ns) = some s)
  | [] => by
    rw [literalFirst, unwrapFirst, ownText]
    cases hk : outer.kind <;> simp_all [isTransparent]
  | n :: ns => by
    rw [literalFirst, unwrapFirst]
    split
    · exact literalFirst_eq_text_iff outer h ns
    · exact literalValue_eq_text_iff n

end

theorem literalAll_eq_some_iff {vs : List Value} {ns : List Node} : literalAll ns = some vs ↔
    List.Forall₂ (fun n v ↦ literalValue n = some v) (ns.filter (·.kind != .comment)) vs := by
  induction ns generalizing vs with
  | nil => simp [literalAll, eq_comm]
  | cons n ns ih =>
    rw [literalAll]
    by_cases hcomment : n.kind = .comment
    · rw [if_pos (by simpa using hcomment), List.filter_cons_of_neg (by simpa using hcomment), ih]
    · rw [if_neg (by simpa using hcomment), List.filter_cons_of_pos (by simpa using hcomment)]
      cases vs with
      | nil => simp [Option.bind_eq_some_iff]
      | cons v vs => simp [← ih, Option.bind_eq_some_iff]

theorem textsOf_eq_some_iff {vs : List Value} {tokens : List String} :
    textsOf vs = some tokens ↔ vs = tokens.map .text := by
  fun_induction textsOf vs generalizing tokens with
  | case1 => simp [eq_comm]
  | case2 s vs ih => cases tokens <;> simp [ih, and_comm]
  | case3 v vs h => cases tokens <;> simp_all

theorem literalValue_array (h : array.kind = .array) :
    literalValue array = (literalAll array.children).map .list := by
  obtain ⟨k, r, l, a, b, t, cs⟩ := array
  obtain rfl : k = .array := h
  rw [literalValue, if_neg (by decide)]

theorem literalAll_eq_texts_iff : literalAll array.children = some (tokens.map .text) ↔
    array.Spells tokens := by
  rw [literalAll_eq_some_iff, List.forall₂_map_right_iff, Spells, parts]
  simp only [literalValue_eq_text_iff]

theorem literalValue_eq_texts_iff (h : array.kind = .array) :
    literalValue array = some (.list (tokens.map .text)) ↔ array.Spells tokens := by
  rw [literalValue_array h, ← literalAll_eq_texts_iff]
  simp

theorem tokensOf_eq_some_iff (h : array.kind = .array) :
    tokensOf array = some tokens ↔ array.Spells tokens := by
  rw [← literalAll_eq_texts_iff, tokensOf, literalValue_array h]
  cases literalAll array.children with
  | none => simp
  | some vs => simp [textsOf_eq_some_iff]

theorem Spells.unique {tokens' : List String} (h : array.Spells tokens)
    (h' : array.Spells tokens') : tokens = tokens' := by
  have hright : Relator.RightUnique fun element token ↦ stringValue element = some token := by
    intro element token token' ht ht'
    exact Option.some_inj.1 (ht.symm.trans ht')
  exact List.right_unique_forall₂' hright h h'

theorem exists_spells_iff :
    (∃ tokens, array.Spells tokens) ↔ ∀ element ∈ array.parts, stringValue element ≠ none := by
  unfold Spells
  induction array.parts with
  | nil => simp
  | cons element parts ih =>
    rw [List.forall_mem_cons, ← ih]
    constructor
    · rintro ⟨tokens, h⟩
      cases h with
      | cons hfirst hrest => exact ⟨by simp [hfirst], _, hrest⟩
    · rintro ⟨hfirst, tokens, hrest⟩
      obtain ⟨token, htoken⟩ := Option.ne_none_iff_exists'.1 hfirst
      exact ⟨token :: tokens, .cons htoken hrest⟩

end texts

theorem HandsOver.unique {array' : Node} (h : call.HandsOver array) (h' : call.HandsOver array') :
    array = array' :=
  Option.some_inj.1 ((tokenArray_eq_some_iff.2 h).symm.trans (tokenArray_eq_some_iff.2 h'))

end Script.Node

end CommandCoverage
