import CommandCoverage.Proofs.Discovery.Registration
import CommandCoverage.Proofs.Script.Keys

namespace CommandCoverage

open Script Analysis Command

structure Occasion where
  workspace : Workspace
  above : List Identity
  name : String
  definition : Located
  session : Session

namespace Occasion

def Registers (o : Occasion) (subs : Node) : Prop :=
  o.definition.owner.object (o.definition.object.get? "subCommands") = some subs

def Brings (o : Occasion) (x : Member) (name : String) : Prop :=
  ∃ key σ child τ, x.name = some key ∧ Later o.workspace o.session σ ∧
    Unbounded.subcommand o.workspace (o.definition.identity :: o.above) o.definition.owner x.node
      key σ = some (child, τ) ∧ child.name = name

def Names (o : Occasion) (names : List String) : Prop :=
  ∃ c τ, Unbounded.build o.workspace o.above (.definition o.name o.definition) o.session =
    some (c, τ) ∧ c.subcommands.map (·.name) = names

end Occasion

variable {w : Workspace} {above : List Identity} {m : Module} {n obj obj' : Node}
  {x : Member} {members members' : List Member} {key name : String} {names : List String}
  {c c' child : Command} {σ τ : Session} {o o' : Occasion}

theorem name_subcommand (h : Unbounded.subcommand w above m n key σ = some (child, τ))
    (hkey : key ≠ "") : child.name = key := by
  obtain ⟨c, υ, hb⟩ := exists_builds_entry w above m n key σ
    fun l τ _ _ _ ↦ exists_builds w above (.definition key l) τ
  obtain ⟨rfl, -⟩ := Prod.mk.inj (Option.some_inj.1 (h.symm.trans hb.eval))
  exact hb.names hkey

theorem Occasion.Brings.eq_key (h : o.Brings x name) (hx : x.name = some key) (hkey : key ≠ "") :
    name = key := by
  obtain ⟨key', σ, child, τ, hname, -, hb, rfl⟩ := h
  obtain rfl := Option.some_inj.1 (hx.symm.trans hname)
  exact name_subcommand hb hkey

theorem exists_register (m : Module) (n : Node) (key : String) (c child : Command) (σ : Session) :
    ∃ x τ, (register m n key c child).run σ = (c.addSubcommand x, τ) ∧ x.name = child.name := by
  rw [register_run]
  split
  · exact ⟨_, _, rfl, rfl⟩
  · exact ⟨_, _, rfl, rfl⟩

/-- Every member with a name brings a command. Commands of the same name replace each other. -/
theorem Builds.exists_brought (h : Builds o.workspace (o.definition.identity :: o.above)
      (.task (.entries members o.definition.owner c)) σ c' τ)
    (hσ : Later o.workspace o.session σ) :
    ∃ children : List Command,
      List.Forall₂ (fun x child ↦ o.Brings x child.name) (members.filter (·.name.isSome)) children ∧
      c'.subcommands = children.foldl (fun cs x ↦ putChild x cs) c.subcommands := by
  induction members generalizing c σ with
  | nil =>
    cases h
    exact ⟨[], .nil, rfl⟩
  | cons member members ih =>
    cases h with
    | unnamed hn hx hr =>
      rw [List.filter_cons_of_neg (by simp [hn])]
      have hrest := ih hr (hσ.trans (later_warned _ _))
      exact hrest
    | @named _ _ _ _ key _ _ _ child _ υ φ _ hn hb hreg hr =>
      rw [List.filter_cons_of_pos (by simp [hn])]
      have hbrings : o.Brings member child.name := ⟨key, σ, child, υ, hn, hσ, hb.eval, rfl⟩
      have hlater := later_register (w := o.workspace) (m := o.definition.owner) (σ := υ)
        member.node key c child
      -- What is registered may have one more warning than what was built.
      obtain ⟨x, ψ, hrun, hname⟩ := exists_register o.definition.owner member.node key c child υ
      rw [hreg] at hrun hlater
      obtain ⟨rfl, rfl⟩ := Prod.mk.inj hrun
      obtain ⟨children, hall, hchildren⟩ := ih hr (hσ.trans (hb.later.trans hlater))
      exact ⟨x :: children, .cons (hname ▸ hbrings) hall, hchildren⟩

theorem Occasion.exists_builds (h : o.Registers obj) : ∃ c own σ τ, own.subcommands = [] ∧
    Unbounded.build o.workspace o.above (.definition o.name o.definition) o.session = some (c, τ) ∧
    Later o.workspace o.session σ ∧
    Builds o.workspace (o.definition.identity :: o.above)
      (.task (.entries obj.members o.definition.owner own)) σ c τ := by
  obtain ⟨c, τ, hb⟩ :=
    CommandCoverage.exists_builds o.workspace o.above (.definition o.name o.definition) o.session
  have heval := hb.eval
  unfold Registers at h
  cases hb with
  | bare _ hv =>
    rw [hv] at h
    cases h
  | notStatic _ hv ho =>
    rw [hv, ho] at h
    cases h
  | literal ha hv ho hb =>
    rw [hv, ho] at h
    obtain rfl := Option.some_inj.1 h
    exact ⟨c, _, _, τ, extended_subcommands .., heval, ha.later, hb⟩

theorem Occasion.exists_names (h : o.Registers obj) : ∃ names : List String,
    List.Forall₂ o.Brings (obj.members.filter (·.name.isSome)) names ∧ o.Names names.eraseDups := by
  obtain ⟨c, own, σ, τ, hown, heval, hσ, hb⟩ := exists_builds h
  obtain ⟨children, hall, hchildren⟩ := hb.exists_brought hσ
  refine ⟨children.map (·.name), List.forall₂_map_right_iff.2 hall, c, τ, heval, ?_⟩
  rw [hchildren, hown, names_foldl_putChild]
  simp

theorem Occasion.names_of_registers (obj : Node) (h : o.Registers obj)
    (hk : some "" ∉ obj.names) : o.Names (obj.names.filterMap id).eraseDups := by
  obtain ⟨c, own, σ, τ, hown, heval, -, hb⟩ := exists_builds h
  obtain ⟨rs, hr⟩ := hb.hasSubcommands (fun x hx hname ↦ hk (List.mem_map.2 ⟨x, hx, hname⟩)) hown
  refine ⟨c, τ, heval, ?_⟩
  rw [hr.names, Node.names, List.filterMap_map, Function.id_comp]

/-- Members of the same names bring commands of the same names, if those under empty keys do. -/
theorem Occasion.Brings.names_eq {names' : List String}
    (h : List.Forall₂ (fun x x' ↦ x.name = x'.name ∧
      (x.name = some "" → ∀ a a', o.Brings x a → o'.Brings x' a' → a = a')) members members')
    (hb : List.Forall₂ o.Brings (members.filter (·.name.isSome)) names)
    (hb' : List.Forall₂ o'.Brings (members'.filter (·.name.isSome)) names') : names = names' := by
  induction h generalizing names names' with
  | nil =>
    cases hb
    cases hb'
    rfl
  | @cons x x' members members' h _ ih =>
    obtain ⟨hname, hempty⟩ := h
    cases hx : x.name with
    | none =>
      have hx' : x'.name = none := hname ▸ hx
      rw [List.filter_cons_of_neg (by simp [hx])] at hb
      rw [List.filter_cons_of_neg (by simp [hx'])] at hb'
      exact ih hb hb'
    | some key =>
      have hx' : x'.name = some key := hname ▸ hx
      rw [List.filter_cons_of_pos (by simp [hx])] at hb
      rw [List.filter_cons_of_pos (by simp [hx'])] at hb'
      cases hb with
      | cons hfirst hrest =>
        cases hb' with
        | cons hfirst' hrest' =>
          rw [ih hrest hrest']
          congr 1
          by_cases hkey : key = ""
          · exact hempty (hkey ▸ hx) _ _ hfirst hfirst'
          · rw [hfirst.eq_key hx hkey, hfirst'.eq_key hx' hkey]

/-- A member has the name that its key gives just if it is a pair or the key is plain. So when
members of an object literal change their form, all names stay just if the keys of these members are
plain; the same member is found under each name just if names that change are hidden; and if all
names stay, then so do those of the subcommands, except that a command under an empty key is called
as it calls itself. -/
theorem forms_alike_iff {obj obj' : Node}
    (h : List.Forall₂ (Replaced fun _ ↦ True) obj.children obj'.children) :
    (∀ n ∈ obj.children, ∀ kind text name, HasKey kind text n → GivesName kind text name →
      ∃ x, n.member? = some x ∧ (x.name = name ↔ n.kind = .pair ∨ kind ∈ plainKeys)) ∧
    (obj.names = obj'.names ↔
      List.Forall₂ (Replaced (· ∈ plainKeys)) obj.children obj'.children) ∧
    ((∀ key i, obj.Finds key i ↔ obj'.Finds key i) ↔
      ∀ i, obj.names[i]? ≠ obj'.names[i]? → Hidden obj.names i ∧ Hidden obj'.names i) ∧
    (obj.names = obj'.names → ∀ o o' : Occasion, o.Registers obj → o'.Registers obj' →
      (∀ x x', (x, x') ∈ obj.members.zip obj'.members → x.name = some "" →
        ∀ a a', o.Brings x a → o'.Brings x' a' → a = a') →
      ∃ names, o.Names names ∧ o'.Names names) := by
  refine ⟨?_, ?_, ?_, ?_⟩
  · intro n _ kind text name hn hg
    obtain ⟨x, hx, hname⟩ := Option.map_eq_some_iff.1 (hn.memberName?_eq hg)
    refine ⟨x, hx, ?_⟩
    rw [hname, ← hg.eq_text_iff]
    split
    · simp_all
    · simp_all [eq_comm]
  · rw [Node.names_eq, Node.names_eq, forall₂_plain_iff h]
  · simp only [Node.finds_iff, lastAt_iff_iff_hidden]
  · intro heq o o' ho ho' hempty
    obtain ⟨names, hb, hnames⟩ := Occasion.exists_names ho
    obtain ⟨names', hb', hnames'⟩ := Occasion.exists_names ho'
    have hforall : List.Forall₂ Eq obj.names obj'.names := List.forall₂_eq_eq_eq ▸ heq
    obtain ⟨hlength, hname⟩ := List.forall₂_iff_zip.1
      (List.forall₂_map_left_iff.1 (List.forall₂_map_right_iff.1 hforall))
    obtain rfl := Occasion.Brings.names_eq
      (List.forall₂_iff_zip.2 ⟨hlength, fun hmem ↦ ⟨hname hmem, hempty _ _ hmem⟩⟩) hb hb'
    exact ⟨_, hnames, hnames'⟩

def pairOf (kind : Kind) (text : String) : Node where
  kind := .pair
  children := [
    { kind, role := some .key, text },
    { kind := .function, role := some .value }]

def methodOf (kind : Kind) (text : String) : Node :=
  { kind := .method, children := [{ kind, role := some .name, text }] }

def literalOf (members : List Node) : Node := (objectAt 2 members).inRole .value

def registeringAll (members : List Node) : Occasion where
  workspace := { files := {}, maxFileSize := 0 }
  above := []
  name := "cli"
  definition := {
    object := objectAt 1 [entryOf "subCommands" (literalOf members)]
    owner := { path := "cli.ts", root := { kind := .program } } }
  session := { cache := { ttl := 1, maxSize := 1 } }

theorem hasKey_pairOf (kind : Kind) (text : String) : HasKey kind text (pairOf kind text) :=
  .pair rfl rfl rfl rfl rfl

theorem hasKey_methodOf (kind : Kind) (text : String) : HasKey kind text (methodOf kind text) :=
  .method rfl rfl rfl rfl

theorem givesName_quoted : GivesName .string "'a'" (some "a") :=
  @GivesName.string '\'' ['a'] _ (.inl rfl) rfl

theorem forms_alike_iff_mixed :
    let quoted := methodOf .string "'a'"
    let computed := methodOf .computedKey "[a]"
    let moved := { quoted with start := 5 }
    let ns := [pairOf .propertyName "a", methodOf .number "1", quoted, computed]
    let ns' := [methodOf .propertyName "a", pairOf .number "1", moved, computed]
    List.Forall₂ (Replaced fun _ ↦ True) ns ns' ∧
      HasKey .string "'a'" quoted ∧ GivesName .string "'a'" (some "a") ∧
      (∃ x, quoted.member? = some x ∧ x.name ≠ some "a") ∧
      (literalOf ns).names = (literalOf ns').names ∧
      (∀ key i, (literalOf ns).Finds key i ↔ (literalOf ns').Finds key i) ∧
      (registeringAll ns).Registers (literalOf ns) ∧
      (registeringAll ns').Registers (literalOf ns') ∧
      (∀ x ∈ (literalOf ns).members, x.name ≠ some "") ∧
      ∃ names, (registeringAll ns).Names names ∧ (registeringAll ns').Names names := by
  intro quoted computed moved ns ns'
  have hreplaced (allowed : Kind → Prop) (ha : ∀ kind ∈ plainKeys, allowed kind) :
      List.Forall₂ (Replaced allowed) ns ns' := by
    refine .cons ?_ (.cons ?_ (.cons (.moved rfl) (.cons (.moved rfl) .nil)))
    · exact .form (ha .propertyName (by decide)) (.plain (by decide)) (hasKey_pairOf ..)
        (hasKey_methodOf ..) (by decide)
    · exact .form (ha .number (by decide)) (.plain (by decide)) (hasKey_methodOf ..)
        (hasKey_pairOf ..) (by decide)
  have hall : List.Forall₂ (Replaced fun _ ↦ True) (literalOf ns).children (literalOf ns').children :=
    hreplaced _ fun _ _ ↦ trivial
  have hquoted := hasKey_methodOf .string "'a'"
  obtain ⟨hmember, hnames, hfinds, hbuilt⟩ := forms_alike_iff hall
  obtain ⟨x, hx, hname⟩ :=
    hmember quoted (by simp [literalOf, objectAt, Node.inRole, ns]) _ _ _ hquoted givesName_quoted
  have hne : x.name ≠ some "a" := by
    rw [Ne, hname]
    decide
  have heq := hnames.2 (hreplaced _ fun _ hk ↦ hk)
  have hnone : ∀ x ∈ (literalOf ns).members, x.name ≠ some "" := by decide
  have hs : (registeringAll ns).Registers (literalOf ns) := rfl
  have hs' : (registeringAll ns').Registers (literalOf ns') := rfl
  exact ⟨hall, hquoted, givesName_quoted, ⟨x, hx, hne⟩, heq,
    hfinds.2 fun i hne ↦ absurd (by rw [heq]) hne, hs, hs', hnone,
    hbuilt heq _ _ hs hs' fun x x' hmem hx ↦ absurd hx (hnone x (List.of_mem_zip hmem).1)⟩

/-- A method with a quoted or computed key is not found as a pair with this key is. -/
theorem exists_method_not_found :
    let ns := [pairOf .string "'a'", pairOf .computedKey "[b]"]
    let ns' := [methodOf .string "'a'", methodOf .computedKey "[b]"]
    List.Forall₂ (Replaced fun _ ↦ True) ns ns' ∧
      (literalOf ns).names = [some "a", none] ∧
      (literalOf ns').names = [some "'a'", some "[b]"] ∧
      ((literalOf ns).get? "a").isSome ∧ (literalOf ns').get? "a" = none ∧
      (registeringAll ns).Names ["a"] ∧ (registeringAll ns').Names ["'a'", "[b]"] := by
  intro ns ns'
  refine ⟨?_, by decide, by decide, by decide, by rfl, ?_, ?_⟩
  · exact .cons (.form trivial givesName_quoted (hasKey_pairOf ..) (hasKey_methodOf ..) (by decide))
      (.cons (.form trivial .computed (hasKey_pairOf ..) (hasKey_methodOf ..) (by decide)) .nil)
  · exact Occasion.names_of_registers (literalOf ns) rfl (by decide)
  · exact Occasion.names_of_registers (literalOf ns') rfl (by decide)

end CommandCoverage
