import CommandCoverage.Proofs.Invocation.Groups

namespace CommandCoverage.Invocation

/-- A token asks for some names, and may bring a value. It is itself no value and does not end the
options. -/
structure AsksFor (lookup : String → Option Arg) (t : String) (names : List String)
    (hasValue : Bool) : Prop where
  dash : startsWithDash t = true
  noValue : isOptionValue t = false
  goesOn : t ≠ "--"
  names : tokenNames lookup t = (names, hasValue)

structure IsShortName (c : Char) : Prop where
  noDash : c ≠ '-'
  noEquals : c ≠ '='
  noPoint : c ≠ '.'
  noDigit : Text.isDigit c = false

def MeansOption (root : Command) (tokens : List String) (name : String) : Prop :=
  ∃ a, meaning root tokens name = some a ∧ a.isFlag = false

/-- After some tokens, two groups are used with the same command, which is that of the tokens, and are
classified alike. -/
structure Alike (root : Command) (tokens us us' : List String) : Prop where
  place : placeOf root (tokens ++ us) = placeOf root tokens
  place' : placeOf root (tokens ++ us') = placeOf root tokens
  classify : classify root (tokens ++ us) = classify root (tokens ++ us')

def positiveName (lookup : String → Option Arg) (name : String) : String :=
  if "no-".isPrefixOf name && (lookup name).isNone then String.ofList (name.toList.drop 3) else name

variable {root : Command} {lookup : String → Option Arg} {t n v x : String} {c : Char}
  {cs : List Char} {names pre ts us us' : List String} {hasValue : Bool} {wanted : Nat} {r : Request}

section tokens

theorem isNumber_cons_of_ne (hdigit : Text.isDigit c = false) (hpoint : c ≠ '.') :
    isNumber (c :: cs) = false := by
  simp [isNumber, afterDigits, hdigit, hpoint]

theorem takeWhile_ne_equals_self (h : '=' ∉ cs) : cs.takeWhile (· != '=') = cs :=
  List.takeWhile_eq_self_iff.2 fun x hx ↦ by
    have hne : x ≠ '=' := fun he ↦ h (he ▸ hx)
    simpa using hne

theorem takeWhile_ne_equals (h : '=' ∉ cs) (rest : List Char) :
    (cs ++ '=' :: rest).takeWhile (· != '=') = cs := by
  have hall := List.takeWhile_eq_self_iff.1 (takeWhile_ne_equals_self h)
  rw [List.takeWhile_append_of_pos hall, List.takeWhile_cons_of_neg (by simp), List.append_nil]

theorem positiveName_of_isSome (h : (lookup n).isSome) : positiveName lookup n = n := by
  have hnone : (lookup n).isNone = false := by simpa using h
  simp [positiveName, hnone]

theorem positiveName_negated (h : lookup ("no-" ++ x) = none) :
    positiveName lookup ("no-" ++ x) = x := by
  have hprefix : "no-".isPrefixOf ("no-" ++ x) = true := by
    rw [String.isPrefixOf, String.startsWith_string_iff, String.toList_append]
    exact List.prefix_append _ _
  simp [positiveName, hprefix, h]

/-- A token of at least two characters, of which the first is a dash and the second begins neither a
number nor the end of the options. -/
theorem AsksFor.of_toList (ht : t.toList = '-' :: c :: cs) (hdigit : Text.isDigit c = false)
    (hpoint : c ≠ '.') (hgoesOn : c = '-' → cs ≠ [])
    (hnames : tokenNames lookup t = (names, hasValue)) : AsksFor lookup t names hasValue where
  dash := by simp [startsWithDash, ht]
  noValue := by simp [isOptionValue, ht, isNumber_cons_of_ne hdigit hpoint]
  goesOn := by
    rintro rfl
    obtain ⟨rfl, rfl⟩ : '-' = c ∧ [] = cs := by simpa using ht
    exact hgoesOn rfl rfl
  names := hnames

theorem tokenNames_long (ht : t.toList = '-' :: '-' :: cs) : tokenNames lookup t =
    ([positiveName lookup (String.ofList (cs.takeWhile (· != '=')))], cs.contains '=') := by
  simp only [tokenNames, ht, positiveName]

theorem tokenNames_short (ht : t.toList = '-' :: c :: cs) (hc : c ≠ '-') : tokenNames lookup t =
    if (c :: cs).contains '=' then ([String.ofList ((c :: cs).takeWhile (· != '='))], true)
    else ((c :: cs).map String.singleton, false) := by
  rw [tokenNames, ht]
  dsimp only
  split
  · rename_i heq
    exact absurd (List.cons.inj (List.cons.inj heq).2).1 hc
  · cases cs <;> simp

theorem asksFor_long (hn : n ≠ "") (he : '=' ∉ n.toList) (hx : positiveName lookup n = x) :
    AsksFor lookup ("--" ++ n) [x] false := by
  have ht : ("--" ++ n).toList = '-' :: '-' :: n.toList := by simp
  refine .of_toList ht (by decide) (by decide) (fun _ ↦ by simpa using hn) ?_
  rw [tokenNames_long ht, takeWhile_ne_equals_self he, String.ofList_toList, hx]
  simp [he]

theorem asksFor_longValue (he : '=' ∉ n.toList) (hx : positiveName lookup n = x) :
    AsksFor lookup ("--" ++ n ++ "=" ++ v) [x] true := by
  have ht : ("--" ++ n ++ "=" ++ v).toList = '-' :: '-' :: (n.toList ++ '=' :: v.toList) := by simp
  refine .of_toList ht (by decide) (by decide) (fun _ ↦ by simp) ?_
  rw [tokenNames_long ht, takeWhile_ne_equals he, String.ofList_toList, hx]
  simp

theorem asksFor_bundle (lookup : String → Option Arg) (hne : cs ≠ []) (h : ∀ c ∈ cs, IsShortName c) :
    AsksFor lookup ("-" ++ String.ofList cs) (cs.map String.singleton) false := by
  obtain ⟨c, cs, rfl⟩ := List.exists_cons_of_ne_nil hne
  have ht : ("-" ++ String.ofList (c :: cs)).toList = '-' :: c :: cs := by simp
  have hc := h c List.mem_cons_self
  refine .of_toList ht hc.noDigit hc.noPoint (absurd · hc.noDash) ?_
  have hequals : '=' ∉ c :: cs := fun hm ↦ (h '=' hm).noEquals rfl
  rw [tokenNames_short ht hc.noDash, if_neg (by simpa using hequals)]

theorem asksFor_short (lookup : String → Option Arg) (hc : IsShortName c) :
    AsksFor lookup ("-" ++ String.singleton c) [String.singleton c] false := by
  rw [String.singleton_eq_ofList]
  exact asksFor_bundle lookup (List.cons_ne_nil c []) (List.forall_mem_singleton.2 hc)

theorem asksFor_shortValue (lookup : String → Option Arg) (hc : IsShortName c) :
    AsksFor lookup ("-" ++ String.singleton c ++ "=" ++ v) [String.singleton c] true := by
  have ht : ("-" ++ String.singleton c ++ "=" ++ v).toList = '-' :: c :: '=' :: v.toList := by simp
  refine .of_toList ht hc.noDigit hc.noPoint (absurd · hc.noDash) ?_
  rw [tokenNames_short ht hc.noDash, if_pos (by simp)]
  simp [hc.noEquals]

end tokens

section reading

theorem AsksFor.readTokens_eq (h : AsksFor lookup t names hasValue) :
    readTokens lookup wanted r (t :: ts) =
      readTokens lookup (if hasValue then 0 else names.countP (takesValue lookup))
        (r.append { names }) ts := by
  have hdash : t ≠ "-" := by
    rintro rfl
    exact absurd h.noValue (by decide)
  simp [readTokens, h.noValue, h.goesOn, h.dash, hdash, h.names, Request.append]

theorem readTokens_value (h : isOptionValue v = true) :
    readTokens lookup (wanted + 1) r (v :: ts) = readTokens lookup wanted r ts := by
  simp [readTokens, h]

theorem AsksFor.opensGroup (h : AsksFor lookup t names hasValue) (ts : List String) :
    OpensGroup (t :: ts) := by
  rintro u ⟨⟩
  exact ⟨h.dash, h.noValue⟩

theorem readTokens_inlineValue {t' : String} (h : AsksFor lookup t [n] false)
    (h' : AsksFor lookup t' [n] true) (hn : takesValue lookup n = true)
    (hv : isOptionValue v = true) :
    readTokens lookup wanted r (t' :: ts) = readTokens lookup wanted r (t :: v :: ts) := by
  rw [h.readTokens_eq, h'.readTokens_eq, if_pos rfl, if_neg Bool.false_ne_true,
    List.countP_singleton, if_pos hn, readTokens_value hv]

theorem readTokens_shortNames (h : ∀ c ∈ cs, IsShortName c)
    (hn : ∀ c ∈ cs, takesValue lookup (String.singleton c) = false) (r : Request) :
    readTokens lookup 0 r (cs.map ("-" ++ String.singleton ·) ++ ts) =
      readTokens lookup 0 (r.append { names := cs.map String.singleton }) ts := by
  induction cs generalizing r with
  | nil => rw [List.map_nil, List.map_nil, Request.append_empty, List.nil_append]
  | cons c cs ih =>
    obtain ⟨hc, h⟩ := List.forall_mem_cons.1 h
    obtain ⟨hnc, hn⟩ := List.forall_mem_cons.1 hn
    have hread := asksFor_short lookup hc
    have hwanted : [String.singleton c].countP (takesValue lookup) = 0 := by simp [hnc]
    rw [List.map_cons, List.cons_append, hread.readTokens_eq, if_neg Bool.false_ne_true,
      hwanted, ih h hn, Request.append_assoc]
    rfl

theorem readTokens_bundle (hne : cs ≠ []) (h : ∀ c ∈ cs, IsShortName c)
    (hn : ∀ c ∈ cs, takesValue lookup (String.singleton c) = false) (r : Request) :
    readTokens lookup 0 r (("-" ++ String.ofList cs) :: ts) =
      readTokens lookup 0 r (cs.map ("-" ++ String.singleton ·) ++ ts) := by
  have hwanted : (cs.map String.singleton).countP (takesValue lookup) = 0 := by
    rw [List.countP_map]
    exact List.countP_eq_zero.2 fun c hc ↦ by simp [hn c hc]
  rw [(asksFor_bundle lookup hne h).readTokens_eq, if_neg Bool.false_ne_true, hwanted,
    readTokens_shortNames h hn]

end reading

theorem placeOf_append (hu : OpensGroup us) : placeOf root (pre ++ us) = placeOf root pre := by
  simp only [placeOf, splitPath_append root pre hu]

theorem Alike.of_readTokens (h : "--" ∉ pre) (hu : OpensGroup us) (hu' : OpensGroup us')
    (hread : readTokens (meaning root pre) 0 {} us = readTokens (meaning root pre) 0 {} us') :
    Alike root pre us us' := by
  have hpath := congrArg Leading.path (splitPath_append root pre hu)
  have hpath' := congrArg Leading.path (splitPath_append root pre hu')
  refine ⟨placeOf_append hu, placeOf_append hu', ?_⟩
  rw [classify_of_request root hpath (request_append root pre h hu),
    classify_of_request root hpath' (request_append root pre h hu'), hread]

theorem takesValue_iff : takesValue (meaning root pre) n = true ↔ MeansOption root pre n := by
  simp [takesValue, MeansOption, Option.any_eq_true]

theorem MeansOption.isSome (h : MeansOption root pre n) : (meaning root pre n).isSome := by
  obtain ⟨a, ha, -⟩ := h
  simp [ha]

/-- The value of an option may be joined to its name or come after it, and flags may be written in a
bundle or one by one. -/
theorem alike_spellings (root : Command) (h : "--" ∉ pre) (post : List String) :
    (∀ n v, n ≠ "" → '=' ∉ n.toList → MeansOption root pre n → isOptionValue v = true →
      Alike root pre (("--" ++ n ++ "=" ++ v) :: post) (("--" ++ n) :: v :: post)) ∧
    (∀ c v, IsShortName c → MeansOption root pre (String.singleton c) → isOptionValue v = true →
      Alike root pre (("-" ++ String.singleton c ++ "=" ++ v) :: post)
        (("-" ++ String.singleton c) :: v :: post)) ∧
    ∀ cs, cs ≠ [] → (∀ c ∈ cs, IsShortName c ∧ ¬MeansOption root pre (String.singleton c)) →
      Alike root pre (("-" ++ String.ofList cs) :: post)
        (cs.map ("-" ++ String.singleton ·) ++ post) := by
  refine ⟨fun n v hn he hopt hv ↦ ?_, fun c v hc hopt hv ↦ ?_, fun cs hne hcs ↦ ?_⟩
  · have hname := positiveName_of_isSome hopt.isSome
    have hlong := asksFor_long hn he hname
    have hvalue := asksFor_longValue (v := v) he hname
    exact .of_readTokens h (hvalue.opensGroup _) (hlong.opensGroup _)
      (readTokens_inlineValue hlong hvalue (takesValue_iff.2 hopt) hv)
  · have hshort := asksFor_short (meaning root pre) hc
    have hvalue := asksFor_shortValue (v := v) (meaning root pre) hc
    exact .of_readTokens h (hvalue.opensGroup _) (hshort.opensGroup _)
      (readTokens_inlineValue hshort hvalue (takesValue_iff.2 hopt) hv)
  · have hnames : ∀ c ∈ cs, IsShortName c := fun c hc ↦ (hcs c hc).1
    have hnone : ∀ c ∈ cs, takesValue (meaning root pre) (String.singleton c) = false :=
      fun c hc ↦ by simpa using mt takesValue_iff.1 (hcs c hc).2
    have hbundle := asksFor_bundle (meaning root pre) hne hnames
    have hsingles : OpensGroup (cs.map ("-" ++ String.singleton ·) ++ post) := by
      obtain ⟨c, cs, rfl⟩ := List.exists_cons_of_ne_nil hne
      exact (asksFor_short (meaning root pre) (hnames c List.mem_cons_self)).opensGroup _
    exact .of_readTokens h (hbundle.opensGroup _) hsingles (readTokens_bundle hne hnames hnone {})

/-- The tokens come after an option that waits for a value and are followed by one that could be a
value. -/
theorem alike_spellings_waiting :
    "--" ∉ ["build", "-o"] ∧ MeansOption waitingTree ["build", "-o"] "out" ∧
    MeansOption waitingTree ["build", "-o"] "o" ∧ isOptionValue "-5" = true ∧
    (∀ c ∈ ['v', 'q'], IsShortName c ∧
      ¬MeansOption waitingTree ["build", "-o"] (String.singleton c)) ∧
    Alike waitingTree ["build", "-o"] ["--out=-5", "dist"] ["--out", "-5", "dist"] ∧
    Alike waitingTree ["build", "-o"] ["-o=-5", "dist"] ["-o", "-5", "dist"] ∧
    Alike waitingTree ["build", "-o"] ["-vq", "dist"] ["-v", "-q", "dist"] := by
  have hdashes : "--" ∉ ["build", "-o"] := by decide
  have hlong : MeansOption waitingTree ["build", "-o"] "out" := ⟨_, rfl, rfl⟩
  have hshort : MeansOption waitingTree ["build", "-o"] "o" := ⟨_, rfl, rfl⟩
  have hvalue : isOptionValue "-5" = true := by decide
  have hletter : IsShortName 'o' := ⟨by decide, by decide, by decide, by decide⟩
  have hflags : ∀ c ∈ ['v', 'q'], IsShortName c ∧
      ¬MeansOption waitingTree ["build", "-o"] (String.singleton c) := by
    have hv : IsShortName 'v' := ⟨by decide, by decide, by decide, by decide⟩
    have hq : IsShortName 'q' := ⟨by decide, by decide, by decide, by decide⟩
    refine List.forall_mem_cons.2 ⟨⟨hv, fun hopt ↦ ?_⟩, ?_⟩
    · exact absurd (takesValue_iff.2 hopt) (by decide)
    refine List.forall_mem_singleton.2 ⟨hq, fun hopt ↦ ?_⟩
    exact absurd (takesValue_iff.2 hopt) (by decide)
  obtain ⟨hjoined, hjoinedShort, hbundled⟩ := alike_spellings waitingTree hdashes ["dist"]
  exact ⟨hdashes, hlong, hshort, hvalue, hflags,
    hjoined "out" "-5" (by decide) (by decide) hlong hvalue,
    hjoinedShort 'o' "-5" hletter hshort hvalue, hbundled ['v', 'q'] (by decide) hflags⟩

end CommandCoverage.Invocation
