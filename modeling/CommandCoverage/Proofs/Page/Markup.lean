import CommandCoverage.Page.Basic
import Mathlib.Data.List.Basic

namespace CommandCoverage

namespace Piece

def fixed? : Piece → Option String
  | fixed s => some s
  | shown _ => none

def shown? : Piece → Option String
  | fixed _ => none
  | shown s => some s

end Piece

namespace Page

open Piece

def isMarkup (c : Char) : Bool := c == '<' || c == '>' || c == '\"' || c == '\''

/-- Where a reader of a page is, with what has been read of a tag, the latest first. -/
inductive Reading where
  | text
  | tag (seen : List Char)
  | quoted (quote : Char) (seen : List Char)
  deriving DecidableEq

namespace Reading

def next : Reading → Char → Reading
  | text, c => if c = '<' then tag [] else text
  | tag seen, c =>
    if c = '>' then text
    else if c = '\"' ∨ c = '\'' then quoted c (c :: seen)
    else tag (c :: seen)
  | quoted quote seen, c => if c = quote then tag (c :: seen) else quoted quote (c :: seen)

def ended : Reading → Char → List String
  | tag seen, c => if c = '>' then [String.ofList seen.reverse] else []
  | text, _ => []
  | quoted _ _, _ => []

end Reading

def tagsFrom (r : Reading) : List Char → List String
  | [] => []
  | c :: cs => r.ended c ++ tagsFrom (r.next c) cs

def tags (html : String) : List String := tagsFrom .text html.toList

def Closed (s : String) : Prop := s.toList.foldl Reading.next .text = .text

instance (s : String) : Decidable (Closed s) := inferInstanceAs (Decidable (_ = _))

end Page

def Piece.Closed : Piece → Prop
  | fixed s => Page.Closed s
  | shown _ => True

instance (x : Piece) : Decidable x.Closed :=
  match x with
  | .fixed s => inferInstanceAs (Decidable (Page.Closed s))
  | .shown _ => .isTrue trivial

namespace Page

open Piece

def Sound (p : Page) : Prop := ∀ l ∈ p, ∀ x ∈ l, x.Closed

instance (p : Page) : Decidable p.Sound := inferInstanceAs (Decidable (∀ l ∈ p, ∀ x ∈ l, x.Closed))

def Plain (s : String) : Prop := ∀ c ∈ s.toList, isMarkup c = false

instance (s : String) : Decidable (Plain s) := List.decidableBAll _ _

/-- A template has the text of what is fixed and nothing where a text is to be shown. -/
abbrev Template := List (Option String)

def fill : Template → List String → String
  | [], _ => ""
  | some s :: t, xs => s ++ fill t xs
  | none :: t, xs => escape (xs.headD "") ++ fill t xs.tail

def pieces (p : Page) : Line := [fixed "\n"].intercalate p

def template (p : Page) : Template := p.pieces.map fixed?

def texts (p : Page) : List String := p.pieces.filterMap shown?

variable {p q : Page} {l : Line} {s : String} {t : Template} {xs : List String} {cs ds : List Char}
  {r : Reading}

theorem isMarkup_of_mem_escapeChar {c d : Char} (h : d ∈ escapeChar c) : isMarkup d = false := by
  unfold escapeChar at h
  split at h
  · exact (by decide : Plain "&amp;") d h
  · exact (by decide : Plain "&lt;") d h
  · exact (by decide : Plain "&gt;") d h
  · exact (by decide : Plain "&quot;") d h
  · exact (by decide : Plain "&#x27;") d h
  · obtain rfl := List.mem_singleton.1 h
    simp_all [isMarkup]

theorem plain_escape (s : String) : Plain (escape s) := by
  intro d h
  rw [escape, String.toList_ofList] at h
  obtain ⟨c, -, hd⟩ := List.mem_flatMap.1 h
  exact isMarkup_of_mem_escapeChar hd

theorem tagsFrom_append :
    tagsFrom r (cs ++ ds) = tagsFrom r cs ++ tagsFrom (cs.foldl .next r) ds := by
  induction cs generalizing r with
  | nil => rfl
  | cons c cs ih => rw [List.cons_append, tagsFrom, ih, tagsFrom, List.append_assoc, List.foldl_cons]

theorem foldl_next_text (h : ∀ c ∈ cs, isMarkup c = false) : cs.foldl .next .text = Reading.text := by
  induction cs with
  | nil => rfl
  | cons c cs ih =>
    have hc : c ≠ '<' := by
      rintro rfl
      exact absurd (h '<' List.mem_cons_self) (by decide)
    rw [List.foldl_cons, Reading.next, if_neg hc]
    exact ih fun d hd ↦ h d (List.mem_cons_of_mem _ hd)

theorem tagsFrom_text (h : ∀ c ∈ cs, isMarkup c = false) : tagsFrom .text cs = [] := by
  induction cs with
  | nil => rfl
  | cons c cs ih =>
    have hc : c ≠ '<' := by
      rintro rfl
      exact absurd (h '<' List.mem_cons_self) (by decide)
    rw [tagsFrom, Reading.next, if_neg hc, Reading.ended, List.nil_append]
    exact ih fun d hd ↦ h d (List.mem_cons_of_mem _ hd)

theorem Plain.closed (h : Plain s) : Closed s := foldl_next_text h

theorem Plain.append {s' : String} (h : Plain s) (h' : Plain s') : Plain (s ++ s') := by
  intro c hc
  rw [String.toList_append, List.mem_append] at hc
  exact hc.elim (h c) (h' c)

theorem Closed.append {s' : String} (h : Closed s) (h' : Closed s') : Closed (s ++ s') := by
  rw [Closed, String.toList_append, List.foldl_append, h]
  exact h'

theorem tags_append (h : Closed s) (s' : String) : tags (s ++ s') = tags s ++ tags s' := by
  rw [tags, String.toList_append, tagsFrom_append, h]
  rfl

theorem tags_fill (h : ∀ s, some s ∈ t → Closed s) (xs : List String) :
    tags (fill t xs) = t.flatMap fun x ↦ (x.map tags).getD [] := by
  -- Between any two pieces a reader is outside of tags.
  induction t generalizing xs with
  | nil => rfl
  | cons x t ih =>
    have ht : ∀ s, some s ∈ t → Closed s := fun s hs ↦ h s (List.mem_cons_of_mem _ hs)
    cases x with
    | some s =>
      rw [fill, tags_append (h s List.mem_cons_self), ih ht, List.flatMap_cons]
      rfl
    | none =>
      have hplain := plain_escape (xs.headD "")
      rw [fill, tags_append hplain.closed, ih ht, List.flatMap_cons, tags, tagsFrom_text hplain]
      rfl

theorem filter_isMarkup_fill (t : Template) (xs : List String) : (fill t xs).toList.filter isMarkup =
    t.flatMap fun x ↦ (x.map fun s ↦ s.toList.filter isMarkup).getD [] := by
  induction t generalizing xs with
  | nil => rfl
  | cons x t ih =>
    cases x with
    | some s =>
      rw [fill, String.toList_append, List.filter_append, ih, List.flatMap_cons]
      rfl
    | none =>
      have hplain : (escape (xs.headD "")).toList.filter isMarkup = [] :=
        List.filter_eq_nil_iff.2 fun c hc ↦ by simp [plain_escape _ c hc]
      rw [fill, String.toList_append, List.filter_append, hplain, ih, List.flatMap_cons]
      rfl

theorem flatMap_intercalate {α β : Type} (f : α → List β) (sep : List α) (ls : List (List α)) :
    (sep.intercalate ls).flatMap f = (sep.flatMap f).intercalate (ls.map (·.flatMap f)) := by
  induction ls with
  | nil => rfl
  | cons l ls ih =>
    cases ls with
    | nil => simp
    | cons m ls =>
      simp only [List.map_cons] at ih ⊢
      rw [List.intercalate_cons_cons, List.intercalate_cons_cons, List.flatMap_append,
        List.flatMap_append, ih]

theorem toList_render (p : Page) : p.render.toList = p.pieces.flatMap (·.render.toList) := by
  have hline (l : Line) : (renderLine l).toList = l.flatMap (·.render.toList) := by
    rw [renderLine, String.toList_join, List.flatMap_map]
  rw [render, String.toList_intercalate, pieces, flatMap_intercalate, List.map_map]
  simp only [Function.comp_def, hline]
  rfl

theorem toList_fill (l : Line) :
    (fill (l.map fixed?) (l.filterMap shown?)).toList = l.flatMap (·.render.toList) := by
  induction l with
  | nil => rfl
  | cons x l ih =>
    cases x with
    | fixed s =>
      have hskip : (fixed s :: l).filterMap shown? = l.filterMap shown? := rfl
      rw [hskip, List.map_cons, fixed?, fill, String.toList_append, ih]
      rfl
    | shown s =>
      have htake : (shown s :: l).filterMap shown? = s :: l.filterMap shown? := rfl
      rw [htake, List.map_cons, fixed?, fill, String.toList_append]
      simp only [List.tail_cons, List.headD_cons, ih]
      rfl

theorem template_eq_intercalate (p : Page) :
    p.template = [some "\n"].intercalate (p.map (·.map fixed?)) := by
  rw [template, pieces, List.map_eq_flatMap, flatMap_intercalate]
  simp only [← List.map_eq_flatMap]
  rfl

theorem template_congr (h : p.map (·.map fixed?) = q.map (·.map fixed?)) :
    p.template = q.template := by
  rw [template_eq_intercalate, template_eq_intercalate, h]

theorem mem_or_mem_of_mem_intercalate {α : Type} {sep : List α} {ls : List (List α)} {x : α}
    (h : x ∈ sep.intercalate ls) : x ∈ sep ∨ ∃ l ∈ ls, x ∈ l := by
  induction ls with
  | nil => simp at h
  | cons l ls ih =>
    cases ls with
    | nil => exact .inr ⟨l, List.mem_cons_self, by simpa using h⟩
    | cons m ls =>
      rw [List.intercalate_cons_cons, List.mem_append, List.mem_append] at h
      rcases h with (h | h) | h
      · exact .inr ⟨l, List.mem_cons_self, h⟩
      · exact .inl h
      · exact (ih h).imp_right fun ⟨n, hn, hx⟩ ↦ ⟨n, List.mem_cons_of_mem _ hn, hx⟩

theorem Sound.closed (h : p.Sound) (hs : some s ∈ p.template) : Closed s := by
  obtain ⟨x, hx, hfixed⟩ := List.mem_map.1 hs
  have hclosed : x.Closed := by
    rcases mem_or_mem_of_mem_intercalate hx with hx | ⟨l, hl, hx⟩
    · obtain rfl := List.mem_singleton.1 hx
      exact (by decide : Closed "\n")
    · exact h l hl x hx
  cases x with
  | fixed s' =>
    obtain rfl := Option.some.inj hfixed
    exact hclosed
  | shown s' => cases hfixed

theorem sound_singleton : Page.Sound [l] ↔ ∀ x ∈ l, x.Closed := List.forall_mem_singleton

theorem closed_fixed : (fixed s).Closed ↔ Closed s := Iff.rfl

theorem closed_shown : (shown s).Closed := trivial

theorem Sound.append (hp : p.Sound) (hq : q.Sound) : (p ++ q).Sound :=
  List.forall_mem_append.2 ⟨hp, hq⟩

theorem length_template (p : Page) : (p.template.filter (·.isNone)).length = p.texts.length := by
  rw [template, texts]
  induction p.pieces with
  | nil => rfl
  | cons x l ih =>
    cases x with
    | fixed s => exact ih
    | shown s => exact congrArg (· + 1) ih

theorem render_eq_fill (p : Page) : p.render = fill p.template p.texts := by
  rw [← String.toList_inj, toList_render, template, texts, toList_fill]

end Page

end CommandCoverage
