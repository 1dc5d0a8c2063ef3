import CommandCoverage.Proofs.Page.Markup
import CommandCoverage.Report.Render

namespace CommandCoverage

open Page Piece

inductive PageContent where
  | report (r : Report) (verbose : Bool)
  | statistics (r : Report) (top : Int)
  | recommendations (priority : String) (verbose : Bool) (rs : List Recommendation)
  | tree (root : Command) (cliPath : String) (ws : List Warning)

structure CommandShape where
  tested : Bool
  args : List Bool
  deriving DecidableEq

structure RecommendationShape where
  priority : Priority
  hasExample : Bool
  deriving DecidableEq

structure ReportShape where
  records : Records
  commands : List CommandShape
  recommendations : List RecommendationShape
  warnings : Nat
  testFiles : Nat
  verbose : Bool
  deriving DecidableEq

inductive PageShape where
  | report (s : ReportShape)
  | recommendations (rs : List RecommendationShape)
  | preformatted
  deriving DecidableEq

section shapes

def Command.shape (c : Command) : CommandShape := ⟨c.tested, c.args.map (·.tested)⟩

def Recommendation.shape (r : Recommendation) : RecommendationShape :=
  ⟨r.priority, (r.example_.filter (!·.isEmpty)).isSome⟩

def Report.shape (r : Report) (verbose : Bool) : ReportShape where
  records := r.records
  commands := r.commands.entries.map (·.2.shape)
  recommendations := r.recommendations.map (·.shape)
  warnings := r.warnings.length
  testFiles := r.origin.testFiles
  verbose

end shapes

section blanks

def CommandShape.blank (s : CommandShape) : Command where
  name := ""
  flags := s.args.map fun tested ↦ { name := "", tested }
  tested := s.tested

def RecommendationShape.blank (s : RecommendationShape) : Recommendation where
  gap := .coverage
  priority := s.priority
  target := ""
  message := ""
  example_ := if s.hasExample then some " " else none

def ReportShape.blank (s : ReportShape) : Report where
  records := s.records
  commands := ⟨s.commands.map fun c ↦ ("", c.blank)⟩
  recommendations := s.recommendations.map (·.blank)
  warnings := List.replicate s.warnings { kind := "", message := "" }
  origin := { analyzedAt := "", cliPath := "", testDir := "", testFiles := s.testFiles }

end blanks

namespace PageContent

def html : PageContent → String
  | report r verbose => r.render verbose .html
  | statistics r top => r.renderStatistics top .html
  | recommendations priority verbose rs => Recommendation.render priority verbose rs .html
  | tree root cliPath ws => root.renderStructure cliPath ws .html

def page : PageContent → Page
  | report r verbose => r.page verbose
  | statistics r top => r.statisticsPage top
  | recommendations priority _ rs => Recommendation.listPage priority rs
  | tree root cliPath ws => root.structurePage cliPath ws

def texts (x : PageContent) : List String := x.page.texts

def shape : PageContent → PageShape
  | report r verbose => .report (r.shape verbose)
  | statistics _ _ | tree _ _ _ => .preformatted
  | recommendations _ _ rs => .recommendations (rs.map (·.shape))

theorem html_eq_render (x : PageContent) : x.html = x.page.render := by
  cases x <;> rfl

end PageContent

def PageShape.page : PageShape → Page
  | report s => s.blank.page s.verbose
  | recommendations rs => Recommendation.listPage "" (rs.map (·.blank))
  | preformatted => Page.preformatted "" ""

def PageShape.template (s : PageShape) : Template := s.page.template

def Page.holes (p : Page) : List Template := p.map (·.map fixed?)

section holes

variable {p q : Page} {r r' : Recommendation} {c d : Command} {g g' : Report} {verbose : Bool}

/-- What is read off the shapes of some things is the same for things of the same shapes. -/
theorem map_eq_of_shapes {α β γ : Type} {shape : α → β} {f : α → γ}
    (hf : ∀ a b, shape a = shape b → f a = f b) {as bs : List α} (h : as.map shape = bs.map shape) :
    as.map f = bs.map f := by
  induction as generalizing bs with
  | nil =>
    obtain rfl := List.map_eq_nil_iff.1 h.symm
    rfl
  | cons a as ih =>
    cases bs with
    | nil => cases h
    | cons b bs =>
      obtain ⟨hab, hrest⟩ := List.cons.inj h
      rw [List.map_cons, List.map_cons, hf a b hab, ih hrest]

theorem shape_blank_command (s : CommandShape) : s.blank.shape = s := by
  simp [Command.shape, CommandShape.blank, Command.args, Function.comp_def]

theorem shape_blank_recommendation (s : RecommendationShape) : s.blank.shape = s := by
  obtain ⟨p, _ | _⟩ := s <;> rfl

theorem shape_blank_report (s : ReportShape) : s.blank.shape s.verbose = s := by
  have hcommands : s.blank.commands.entries.map (·.2.shape) = s.commands := by
    simp [ReportShape.blank, Function.comp_def, shape_blank_command]
  have hrecommendations : s.blank.recommendations.map (·.shape) = s.recommendations := by
    simp [ReportShape.blank, Function.comp_def, shape_blank_recommendation]
  have hwarnings : s.blank.warnings.length = s.warnings := List.length_replicate
  rw [Report.shape, hcommands, hrecommendations, hwarnings]
  rfl

theorem holes_append (p q : Page) : Page.holes (p ++ q) = p.holes ++ q.holes := List.map_append

theorem holes_cons (l : Line) (p : Page) : Page.holes (l :: p) = l.map fixed? :: p.holes := rfl

theorem holes_titled (title title' : String) (h : p.holes = q.holes) :
    (titled title p).holes = (titled title' q).holes := by
  simp only [titled, holes_append, h]
  rfl

theorem holes_listOf (opening closing : List String) (h : p.holes = q.holes) :
    (Report.listOf opening closing p).holes = (Report.listOf opening closing q).holes := by
  have hempty : p.isEmpty = q.isEmpty := by
    have := congrArg List.isEmpty h
    simpa only [Page.holes, List.isEmpty_map] using this
  unfold Report.listOf
  rw [hempty]
  split
  · rfl
  · simp only [holes_append, h]

theorem holes_map {α β : Type} {shape : α → β} {f : α → Line}
    (hf : ∀ a b, shape a = shape b → (f a).map fixed? = (f b).map fixed?) {as bs : List α}
    (h : as.map shape = bs.map shape) : Page.holes (as.map f) = Page.holes (bs.map f) := by
  rw [Page.holes, Page.holes, List.map_map, List.map_map]
  exact map_eq_of_shapes hf h

theorem holes_flatMap {α β : Type} {shape : α → β} {f : α → Page}
    (hf : ∀ a b, shape a = shape b → (f a).holes = (f b).holes) {as bs : List α}
    (h : as.map shape = bs.map shape) : Page.holes (as.flatMap f) = Page.holes (bs.flatMap f) := by
  rw [Page.holes, Page.holes, List.map_flatMap, List.map_flatMap, List.flatMap_def, List.flatMap_def]
  exact congrArg List.flatten (map_eq_of_shapes hf h)

theorem holes_itemLine (h : r.shape = r'.shape) : r.itemLine.map fixed? = r'.itemLine.map fixed? := by
  have hexample (r : Recommendation) : r.examplePieces.map fixed? =
      if r.shape.hasExample then [some "<pre>", none, some "</pre>"] else [] := by
    rw [Recommendation.examplePieces, Recommendation.shape]
    cases r.example_.filter (!·.isEmpty) <;> rfl
  have hpriority : r.priority = r'.priority := congrArg RecommendationShape.priority h
  simp only [Recommendation.itemLine, List.map_append, hexample, h, hpriority]
  rfl

theorem holes_commandItem (path path' : String) (h : c.shape = d.shape) :
    (Report.commandItem path c).holes = (Report.commandItem path' d).holes := by
  have htested : c.tested = d.tested := congrArg CommandShape.tested h
  have hargs : Page.holes (c.args.map Report.argLine) = Page.holes (d.args.map Report.argLine) := by
    refine holes_map (fun a b hab ↦ ?_) (congrArg CommandShape.args h)
    simp only [Report.argLine, hab]
    rfl
  have hlist := holes_listOf ["<ul>"] ["</ul>"] hargs
  simp only [Report.commandItem, List.cons_append, holes_cons, holes_append, hlist, htested]
  rfl

theorem holes_warnings (ws : List Warning) : Page.holes (ws.map Report.warningLine) =
    List.replicate ws.length [some "<li><code>", none, some "</code> ", none, some "</li>"] := by
  have hline : (fun l : Line ↦ l.map fixed?) ∘ Report.warningLine =
      fun _ ↦ [some "<li><code>", none, some "</code> ", none, some "</li>"] := rfl
  rw [Page.holes, List.map_map, hline, List.map_const']

theorem holes_page (h : g.shape verbose = g'.shape verbose) :
    (g.page verbose).holes = (g'.page verbose).holes := by
  have hrecords : g.records = g'.records := congrArg ReportShape.records h
  have hfiles : g.origin.testFiles = g'.origin.testFiles := congrArg ReportShape.testFiles h
  have horigin : Page.holes (Report.originItems g.origin verbose) =
      Page.holes (Report.originItems g'.origin verbose) := by
    simp only [Report.originItems, hfiles]
    cases verbose <;> rfl
  have hcommands := holes_flatMap (f := fun x : String × Command ↦ Report.commandItem x.1 x.2)
    (fun x y hxy ↦ holes_commandItem x.1 y.1 hxy) (congrArg ReportShape.commands h)
  have hrecommendations :=
    holes_map (fun r r' ↦ holes_itemLine) (congrArg ReportShape.recommendations h)
  have hwarnings : Page.holes (g.warnings.map Report.warningLine) =
      Page.holes (g'.warnings.map Report.warningLine) := by
    have hlength : g.warnings.length = g'.warnings.length := congrArg ReportShape.warnings h
    rw [holes_warnings, holes_warnings, hlength]
  refine holes_titled _ _ ?_
  simp only [holes_append, horigin, hrecords, hcommands, holes_listOf _ _ hrecommendations,
    holes_listOf _ _ hwarnings]

theorem holes_listPage (priority priority' : String) {rs rs' : List Recommendation}
    (h : rs.map (·.shape) = rs'.map (·.shape)) :
    (Recommendation.listPage priority rs).holes = (Recommendation.listPage priority' rs').holes := by
  have hempty : rs.isEmpty = rs'.isEmpty := by
    have := congrArg List.isEmpty h
    simpa only [List.isEmpty_map] using this
  have hitems := holes_map (fun r r' ↦ holes_itemLine) h
  unfold Recommendation.listPage
  rw [hempty]
  split
  · rfl
  · refine holes_titled _ _ ?_
    simp only [holes_append, hitems]

theorem holes_preformatted (title title' content content' : String) :
    (preformatted title content).holes = (preformatted title' content').holes :=
  holes_titled title title' rfl

theorem template_page (x : PageContent) : x.page.template = x.shape.template := by
  refine template_congr ?_
  cases x with
  | report r verbose => exact holes_page (shape_blank_report (r.shape verbose)).symm
  | statistics r top => exact holes_preformatted _ _ _ _
  | recommendations priority verbose rs =>
    refine holes_listPage _ _ ?_
    simp [Function.comp_def, shape_blank_recommendation]
  | tree root cliPath ws => exact holes_preformatted _ _ _ _

end holes

section sound

variable {p : Page}

theorem plain_repr (n : Nat) : Plain (Nat.repr n) := by
  intro c hc
  rw [Nat.repr, String.toList_ofList] at hc
  have hdigit := Nat.isDigit_of_mem_toDigits (by decide) (by decide) hc
  cases hm : isMarkup c with
  | false => rfl
  | true =>
    simp only [isMarkup, Bool.or_eq_true, beq_iff_eq] at hm
    rcases hm with ((rfl | rfl) | rfl) | rfl <;> exact absurd hdigit (by decide)

theorem toList_pushn (s : String) (c : Char) (n : Nat) :
    (s.pushn c n).toList = s.toList ++ List.replicate n c := by
  rw [String.pushn_eq_repeat_push]
  induction n with
  | zero => simp [Nat.repeat]
  | succ n ih => rw [Nat.repeat, String.toList_push, ih, List.append_assoc, List.replicate_succ']

theorem plain_fixedText (n places : Nat) : Plain (fixedText n places) := by
  have hzeros (k : Nat) : Plain ("".pushn '0' k) := by
    intro c hc
    rw [toList_pushn] at hc
    obtain rfl := List.eq_of_mem_replicate (by simpa using hc)
    rfl
  have hpoint : Plain "." := by decide
  unfold fixedText
  split
  · exact plain_repr n
  · exact ((plain_repr _).append hpoint).append ((hzeros _).append (plain_repr _))

theorem plain_percentText (r : Record) : Plain r.percentText := by
  have hsign : Plain (signText r.rounded) := by
    unfold signText
    split <;> decide
  have hplaces : Plain (fixedPlaces 1 r.rounded) := by
    unfold fixedPlaces
    split
    · decide
    · split
      · exact hsign.append (by decide)
      · exact hsign.append (plain_fixedText _ _)
  exact hplaces.append (by decide)

theorem sound_titled (title : String) (h : p.Sound) : (titled title p).Sound := by
  have hstart : Page.Sound (["<!DOCTYPE html>", "<html lang=\"en\">", "<head>",
    "<meta charset=\"utf-8\">"].map line) := by decide
  have htitle : Page.Sound [[fixed "<title>", shown title, fixed "</title>"]] := by
    simp only [sound_singleton, List.forall_mem_cons, closed_fixed, closed_shown]
    decide
  have hstyles : Page.Sound styles := by decide +kernel
  have hmiddle : Page.Sound (["</head>", "<body>"].map line) := by decide
  have hheading : Page.Sound [[fixed "<h1>", shown title, fixed "</h1>"]] := by
    simp only [sound_singleton, List.forall_mem_cons, closed_fixed, closed_shown]
    decide
  have hend : Page.Sound (["</body>", "</html>", ""].map line) := by decide
  have hhead := (((hstart.append htitle).append hstyles).append hmiddle).append hheading
  exact (hhead.append h).append hend

theorem sound_listOf {opening closing : List String} (ho : Page.Sound (opening.map line))
    (hc : Page.Sound (closing.map line)) (h : p.Sound) : (Report.listOf opening closing p).Sound := by
  unfold Report.listOf
  split
  · exact List.forall_mem_nil _
  · exact (ho.append h).append hc

theorem sound_map {α : Type} {f : α → Line} (h : ∀ a, Page.Sound [f a]) (as : List α) :
    Page.Sound (as.map f) := by
  intro l hl
  obtain ⟨a, -, rfl⟩ := List.mem_map.1 hl
  exact sound_singleton.1 (h a)

theorem sound_itemLine (r : Recommendation) : Page.Sound [r.itemLine] := by
  have hexample : ∀ x ∈ r.examplePieces, x.Closed := by
    unfold Recommendation.examplePieces
    split
    · exact List.forall_mem_nil _
    · simp only [List.forall_mem_cons, closed_fixed, closed_shown]
      decide
  have hword : Plain r.priority.word := by cases r.priority <;> decide
  have hstart : Closed "<li><strong>" := by decide
  have hpriority : Closed ("<li><strong>" ++ r.priority.word ++ "</strong> ") :=
    (hstart.append hword.closed).append (by decide)
  rw [sound_singleton, Recommendation.itemLine]
  refine List.forall_mem_append.2 ⟨List.forall_mem_append.2 ⟨?_, hexample⟩, by decide⟩
  simp only [List.forall_mem_cons, closed_fixed, closed_shown, hpriority]
  decide

theorem closed_statusWord (tested : Bool) :
    Closed ("<li class=\"" ++ Report.statusWord tested ++ "\"><code>") ∧
      Closed ("<li class=\"" ++ Report.statusWord tested ++ "\"><code>--") := by
  cases tested <;> decide

theorem sound_recordRow (r : Records) (c : Category) : Page.Sound [Report.recordRow r c] := by
  have hlabel : Plain c.label := by cases c <;> decide
  have hstart : Closed "<tr><td>" := by decide
  have hcell : Closed "</td><td>" := by decide
  have hend : Closed "</td></tr>" := by decide
  rw [sound_singleton, Report.recordRow, line, List.forall_mem_singleton, closed_fixed]
  have htested :=
    ((hstart.append hlabel.closed).append hcell).append (plain_repr (r.get c).tested).closed
  have htotal := (htested.append hcell).append (plain_repr (r.get c).total).closed
  exact ((htotal.append hcell).append (plain_percentText _).closed).append hend

theorem sound_commandItem (path : String) (c : Command) : (Report.commandItem path c).Sound := by
  have hargs : Page.Sound (c.args.map Report.argLine) := by
    refine sound_map (fun a ↦ ?_) c.args
    simp only [sound_singleton, Report.argLine, List.forall_mem_cons, closed_fixed, closed_shown,
      (closed_statusWord a.tested).2]
    decide
  have hlist : Page.Sound (Report.listOf ["<ul>"] ["</ul>"] (c.args.map Report.argLine)) :=
    sound_listOf (by decide) (by decide) hargs
  refine List.forall_mem_cons.2 ⟨?_, hlist.append (by decide)⟩
  simp only [List.forall_mem_cons, closed_fixed, closed_shown, (closed_statusWord c.tested).1]
  decide

theorem sound_warningLine (w : Warning) : Page.Sound [Report.warningLine w] := by
  simp only [sound_singleton, Report.warningLine, List.forall_mem_cons, closed_fixed, closed_shown]
  decide

theorem sound_originItems (o : Origin) (verbose : Bool) : (Report.originItems o verbose).Sound := by
  have hfiles : Closed (Nat.repr o.testFiles) := (plain_repr _).closed
  unfold Report.originItems
  refine Sound.append ?_ ?_
  · simp only [Page.Sound, Report.originItem, Report.codePieces, List.cons_append, List.nil_append,
      List.forall_mem_cons, closed_fixed, closed_shown, hfiles]
    decide
  · split
    · simp only [sound_singleton, Report.originItem, List.cons_append, List.nil_append,
        List.forall_mem_cons, closed_fixed, closed_shown]
      decide
    · exact List.forall_mem_nil _

theorem sound_report (r : Report) (verbose : Bool) : (r.page verbose).Sound := by
  have hrecords := sound_map (sound_recordRow r.records) Category.all
  have hcommands : Page.Sound
      (r.commands.entries.flatMap fun x ↦ Report.commandItem x.1 x.2) := by
    intro l hl
    obtain ⟨x, -, hx⟩ := List.mem_flatMap.1 hl
    exact sound_commandItem x.1 x.2 l hx
  have hrecommendations : Page.Sound (Report.listOf ["<h2>Recommendations</h2>", "<ol>"] ["</ol>"]
      (r.recommendations.map (·.itemLine))) :=
    sound_listOf (by decide) (by decide) (sound_map sound_itemLine _)
  have hwarnings : Page.Sound (Report.listOf ["<h2>Warnings</h2>", "<ul>"] ["</ul>"]
      (r.warnings.map Report.warningLine)) :=
    sound_listOf (by decide) (by decide) (sound_map sound_warningLine _)
  have horigin : Page.Sound ([line "<ul>"] ++ Report.originItems r.origin verbose) :=
    Sound.append (by decide) (sound_originItems r.origin verbose)
  refine sound_titled _ (Sound.append (Sound.append ?_ hrecommendations) hwarnings)
  refine Sound.append (Sound.append (Sound.append ?_ (by decide)) hcommands) (by decide)
  exact (horigin.append (by decide)).append hrecords

theorem sound_preformatted (title content : String) : (preformatted title content).Sound := by
  refine sound_titled _ ?_
  simp only [sound_singleton, List.forall_mem_cons, closed_fixed, closed_shown]
  decide

theorem sound_listPage (priority : String) (rs : List Recommendation) :
    (Recommendation.listPage priority rs).Sound := by
  unfold Recommendation.listPage
  split
  · exact sound_preformatted _ _
  · exact sound_titled _
      ((Sound.append (by decide) (sound_map sound_itemLine rs)).append (by decide))

theorem sound_page (x : PageContent) : x.page.Sound := by
  cases x with
  | report r verbose => exact sound_report r verbose
  | statistics r top => exact sound_preformatted _ _
  | recommendations priority verbose rs => exact sound_listPage priority rs
  | tree root cliPath ws => exact sound_preformatted _ _

end sound

/-- Whatever texts a page shows, it is the template of its shape with these texts escaped. No
character of markup is left in an escaped text, so the page has the markup and the tags of its
template, and pages of the same shape have the same tags. -/
theorem PageContent.html_eq_fill (x : PageContent) :
    x.html = fill x.shape.template x.texts ∧
      (x.shape.template.filter (·.isNone)).length = x.texts.length ∧
      (∀ s ∈ x.texts, Plain (escape s)) ∧
      x.html.toList.filter isMarkup = (fill x.shape.template []).toList.filter isMarkup ∧
      tags x.html = tags (fill x.shape.template []) ∧
      ∀ y : PageContent, y.shape = x.shape → tags y.html = tags x.html := by
  have hfill (x : PageContent) : x.html = fill x.shape.template x.texts := by
    rw [x.html_eq_render, render_eq_fill, template_page]
    rfl
  have htags (x : PageContent) : tags x.html = tags (fill x.shape.template []) := by
    have hclosed : ∀ s, some s ∈ x.shape.template → Closed s := by
      rw [← template_page]
      exact fun s ↦ (sound_page x).closed
    rw [hfill, tags_fill hclosed, tags_fill hclosed]
  refine ⟨hfill x, ?_, fun s _ ↦ plain_escape s, ?_, htags x, fun y h ↦ ?_⟩
  · rw [← template_page]
    exact length_template x.page
  · rw [hfill, filter_isMarkup_fill, filter_isMarkup_fill]
  · rw [htags, htags, h]

/-- A report on a command whose description, argument, recommendation and warning have the texts
given. -/
def noting (description name message example_ : String) : PageContent :=
  .report
    { records := {}
      commands := ⟨[("cli", { name := "cli", description, flags := [{ name }], tested := true })]⟩
      recommendations := [⟨.coverage, .low, "cli", message, some example_⟩]
      warnings := [{ kind := "dynamic_args", message }]
      origin := { analyzedAt := "", cliPath := name, testDir := "test" } } true

theorem html_eq_fill_noting :
    let harmless := noting "Builds it" "out" "Use out" "run(['--out'])"
    let injecting :=
      noting "<script>steal()</script>" "\" onclick=\"steal()" "</li></ol>" "</pre><img>"
    injecting.shape = harmless.shape ∧ tags injecting.html = tags harmless.html ∧
      "<script>steal()</script>" ∈ injecting.texts := by
  intro harmless injecting
  have hshape : injecting.shape = harmless.shape := by decide
  have htags := harmless.html_eq_fill.2.2.2.2.2 injecting hshape
  exact ⟨hshape, htags, by decide⟩

end CommandCoverage
