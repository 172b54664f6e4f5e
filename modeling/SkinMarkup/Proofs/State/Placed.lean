import SkinMarkup.Proofs.State.LocatedEdits
import SkinMarkup.Proofs.State.Revisions
import SkinMarkup.Proofs.State.Rewritten

/-!
# Start tags among other elements

An edit may depend on the elements that a start tag belongs to. `Markup.placed` tells
them of every start tag in markup; the segments of a scan tell the same of its tokens
(`Document.exists_located`). Markup is rewritten by a function of all this
(`Markup.rewriteAt`), and so are the segments of a document when an action gives its
start tags other texts (`Document.reviseText_edits`).
-/

namespace SkinMarkup

/-- The name of an element whose start tag has the given content. -/
def tagName (selfClosing : Bool) (content : Text) : Text :=
  (Token.ofStart selfClosing content).name

namespace Markup

/-- A start tag and the names of the elements that it belongs to, innermost first. -/
structure Place where
  names : List Text
  selfClosing : Bool
  content : Text

/-- The start tags of markup in document order, if the elements `opened` are open. -/
def placed (opened : List Text) : Markup → List Place
  | nil => []
  | inert _ _ rest => rest.placed opened
  | empty content rest => ⟨tagName true content :: opened, true, content⟩ :: rest.placed opened
  | node content inside _ rest =>
    ⟨tagName false content :: opened, false, content⟩ ::
      (inside.placed (tagName false content :: opened) ++ rest.placed opened)

/-- Markup with start tags that are given by the old ones and by where these stand. -/
def rewriteAt (f : Place → Text) (opened : List Text) : Markup → Markup
  | nil => nil
  | inert event isInert rest => inert event isInert (rest.rewriteAt f opened)
  | empty content rest =>
    empty (f ⟨tagName true content :: opened, true, content⟩) (rest.rewriteAt f opened)
  | node content inside close rest =>
    let names := tagName false content :: opened
    node (f ⟨names, false, content⟩) (inside.rewriteAt f names) close (rest.rewriteAt f opened)

variable {w : Markup} {opened : List Text} {x : Place} {f : Place → Text} {selfClosing : Bool}
  {content : Text} {gap gap' : Text} {segments segments' : List Segment}

/-- A token that is the start tag at a place. -/
abbrev IsTokenAt (token : Token) (x : Place) : Prop :=
  IsToken token (.ofStart x.selfClosing) (.start x.selfClosing x.content)

theorem IsTokenAt.name_eq {token : Token} (h : IsTokenAt token x) :
    token.name = tagName x.selfClosing x.content := by
  rw [tagName, ← h.ofStart_eq]
  rfl

theorem mem_events_of_placed (hx : x ∈ w.placed opened) :
    Event.start x.selfClosing x.content ∈ w.events := by
  induction w generalizing opened with
  | nil => cases hx
  | inert event hinert rest ih => exact events_behind_inert (ih hx)
  | empty content rest ih =>
    rcases List.mem_cons.mp hx with rfl | hx
    · exact List.mem_cons_self
    · exact events_behind_empty (ih hx)
  | node content inside close rest ihinside ih =>
    rcases List.mem_cons.mp hx with rfl | hx
    · exact List.mem_cons_self
    · rcases List.mem_append.mp hx with hx | hx
      · exact events_inside_node (ihinside hx)
      · exact events_behind_node (ih hx)

/-- The first start tag belongs to its own element and those that are open. -/
theorem place_of_first (hfirst : w.first? = some (selfClosing, content)) (opened : List Text) :
    ⟨tagName selfClosing content :: opened, selfClosing, content⟩ ∈ w.placed opened := by
  induction w with
  | nil => cases hfirst
  | inert event hinert rest ih => exact ih hfirst
  | empty content rest ih =>
    cases hfirst
    exact List.mem_cons_self
  | node content inside close rest ihinside ih =>
    cases hfirst
    exact List.mem_cons_self

theorem first?_rewriteAt (hfirst : w.first? = some (selfClosing, content)) (f : Place → Text)
    (opened : List Text) : (w.rewriteAt f opened).first? =
      some (selfClosing, f ⟨tagName selfClosing content :: opened, selfClosing, content⟩) := by
  induction w with
  | nil => cases hfirst
  | inert event hinert rest ih => exact ih hfirst
  | empty content rest ih =>
    cases hfirst
    rfl
  | node content inside close rest ihinside ih =>
    cases hfirst
    rfl

/-- Markup is rewritten as its start tags are. -/
theorem rewritten_rewriteAt {Q : Bool → Text → Text → Prop}
    (h : ∀ x ∈ w.placed opened, Q x.selfClosing x.content (f x)) :
    Rewritten Q w (w.rewriteAt f opened) := by
  induction w generalizing opened with
  | nil => exact .nil
  | inert event hinert rest ih => exact .inert (ih h)
  | empty content rest ih =>
    obtain ⟨hcontent, hrest⟩ := List.forall_mem_cons.mp h
    exact .empty hcontent (ih hrest)
  | node content inside close rest ihinside ih =>
    obtain ⟨hcontent, h⟩ := List.forall_mem_cons.mp h
    obtain ⟨hinside, hrest⟩ := List.forall_mem_append.mp h
    exact .node hcontent (ihinside hinside) (ih hrest)

/-! ## Places of tokens -/

theorem around_of_start {token : Token}
    (h : IsToken token (.ofStart selfClosing) (.start selfClosing content)) (opened : List Text) :
    Segment.around opened token = tagName selfClosing content :: opened := by
  have hplace : IsTokenAt token ⟨[], selfClosing, content⟩ := h
  rw [Segment.around, if_pos (isStart_of_isToken selfClosing h), hplace.name_eq]

theorem openAfter_of_empty {token : Token} (h : IsToken token .selfClosing (.empty content))
    (opened : List Text) : Segment.openAfter opened token = opened :=
  Segment.openAfter_of_other (by rw [h.kind]; decide) (by rw [h.kind]; decide)

theorem openAfter_of_node {token : Token} (h : IsToken token .opening (.opening content))
    (opened : List Text) : Segment.openAfter opened token = tagName false content :: opened := by
  have hplace : IsTokenAt token ⟨[], false, content⟩ := h
  rw [Segment.openAfter_of_opening h.kind, hplace.name_eq]

theorem openAfter_of_inert {token : Token} (h : token.isElement = false) (opened : List Text) :
    Segment.openAfter opened token = opened := by
  refine Segment.openAfter_of_other ?_ ?_ <;>
    · intro hkind
      rw [Token.isElement, hkind] at h
      cases h

/-- An edit `g` of segments that gives start tags the contents `f`. -/
structure WritesAt (w : Markup) (opened : List Text) (f : Place → Text)
    (g : List Text → Segment → Segment) : Prop where
  other : ∀ names s, s.token.isStart = false → g names s = s
  start : ∀ x ∈ w.placed opened, ∀ s, IsTokenAt s.token x →
    (g x.names s).source = s.gap ++ (Event.start x.selfClosing (f x)).source

/-- Markup with the segments `own` of its own. Its start tags stand where their tokens
do, and both are rewritten alike. -/
structure Locates (w : Markup) (opened : List Text) (f : Place → Text)
    (g : List Text → Segment → Segment) (gap gap' : Text) (own : List Segment) : Prop where
  openBehind : Segment.openBehind opened own = opened
  place : ∀ x ∈ w.placed opened, ∃ p ∈ Segment.located opened own,
    p.1 = x.names ∧ IsTokenAt p.2.token x
  source : w.WritesAt opened f g → gap ++ (w.rewriteAt f opened).source =
    Segment.sourceAll ((Segment.located opened own).map fun p => g p.1 p.2) ++ gap'

namespace Locates

variable {rest inside : Markup} {f : Place → Text} {g : List Text → Segment → Segment}
  {own own' : List Segment} {token token' : Token} {close gap₁ : Text}

theorem at_end (opened : List Text) (f : Place → Text) (g : List Text → Segment → Segment)
    (gap : Text) : nil.Locates opened f g gap gap [] where
  openBehind := rfl
  place := List.forall_mem_nil _
  source := fun _ => by simp [rewriteAt, Segment.located, Segment.sourceAll]

theorem text {event : Event} (hinert : event.elementKind? = none)
    (hrest : rest.Locates opened f g (gap ++ event.source) gap' own) :
    (inert event hinert rest).Locates opened f g gap gap' own where
  openBehind := hrest.openBehind
  place := hrest.place
  source := fun hg => by
    rw [← hrest.source ⟨hg.other, hg.start⟩, rewriteAt, source_inert, List.append_assoc]

theorem inert {event : Event} (hinert : event.elementKind? = none)
    (htoken : token.isElement = false) (htext : token.text = event.source)
    (hrest : rest.Locates opened f g [] gap' own) :
    (inert event hinert rest).Locates opened f g gap gap' (⟨gap, token⟩ :: own) := by
  have hopen := openAfter_of_inert htoken opened
  refine ⟨?_, fun x hx => ?_, fun hg => ?_⟩
  · rw [Segment.openBehind, List.foldl_cons, hopen]
    exact hrest.openBehind
  · obtain ⟨p, hp, hplace⟩ := hrest.place x hx
    exact ⟨p, List.mem_cons_of_mem _ (hopen.symm ▸ hp), hplace⟩
  · have hsource := hrest.source ⟨hg.other, hg.start⟩
    rw [List.nil_append] at hsource
    rw [Segment.located, hopen, List.map_cons, hg.other _ _ (Token.isStart_eq_false htoken),
      Segment.sourceAll_cons, List.append_assoc, ← hsource]
    simp [rewriteAt, htext]

theorem empty (htoken : IsToken token .selfClosing (.empty content))
    (hrest : rest.Locates opened f g [] gap' own) :
    (empty content rest).Locates opened f g gap gap' (⟨gap, token⟩ :: own) := by
  have hopen := openAfter_of_empty htoken opened
  have haround := @around_of_start true _ _ htoken opened
  refine ⟨?_, fun x hx => ?_, fun hg => ?_⟩
  · rw [Segment.openBehind, List.foldl_cons, hopen]
    exact hrest.openBehind
  · rcases List.mem_cons.mp hx with rfl | hx
    · exact ⟨_, List.mem_cons_self, haround, htoken⟩
    · obtain ⟨p, hp, hplace⟩ := hrest.place x hx
      exact ⟨p, List.mem_cons_of_mem _ (hopen.symm ▸ hp), hplace⟩
  · obtain ⟨hstart, hothers⟩ := List.forall_mem_cons.mp hg.start
    have hsource := hrest.source ⟨hg.other, hothers⟩
    rw [List.nil_append] at hsource
    have hwrite : (g (tagName true content :: opened) ⟨gap, token⟩).source = _ :=
      hstart ⟨gap, token⟩ htoken
    rw [Segment.source] at hwrite
    rw [Segment.located, hopen, haround, List.map_cons, Segment.sourceAll_cons]
    dsimp only
    rw [hwrite, List.append_assoc, ← hsource]
    simp [rewriteAt, Event.start]

/-- The segments inside an element stand in it, and those behind it do not. -/
theorem node (htoken : IsToken token .opening (.opening content))
    (hclose : IsToken token' .closing (.closing close))
    (hinner : inside.Locates (tagName false content :: opened) f g [] gap₁ own)
    (hrest : rest.Locates opened f g [] gap' own') :
    (node content inside close rest).Locates opened f g gap gap'
      (⟨gap, token⟩ :: (own ++ ⟨gap₁, token'⟩ :: own')) := by
  have hopen := openAfter_of_node htoken opened
  have haround := @around_of_start false _ _ htoken opened
  have hopen' : Segment.openAfter (tagName false content :: opened) token' = opened :=
    Segment.openAfter_of_closing hclose.kind
  have hlocated : Segment.located opened (⟨gap, token⟩ :: (own ++ ⟨gap₁, token'⟩ :: own')) =
      (tagName false content :: opened, ⟨gap, token⟩) ::
        (Segment.located (tagName false content :: opened) own ++
          (Segment.around (tagName false content :: opened) token', ⟨gap₁, token'⟩) ::
            Segment.located opened own') := by
    rw [Segment.located, haround, hopen, Segment.located_append, hinner.openBehind,
      Segment.located, hopen']
  refine ⟨?_, fun x hx => ?_, fun hg => ?_⟩
  · have hbehind := hinner.openBehind
    have hbehind' := hrest.openBehind
    rw [Segment.openBehind] at hbehind hbehind' ⊢
    rw [List.foldl_cons, List.foldl_append, List.foldl_cons, hopen, hbehind, hopen', hbehind']
  · rw [hlocated]
    rcases List.mem_cons.mp hx with rfl | hx
    · exact ⟨_, List.mem_cons_self, rfl, htoken⟩
    · rcases List.mem_append.mp hx with hx | hx
      · obtain ⟨p, hp, hplace⟩ := hinner.place x hx
        exact ⟨p, List.mem_cons_of_mem _ (List.mem_append_left _ hp), hplace⟩
      · obtain ⟨p, hp, hplace⟩ := hrest.place x hx
        exact ⟨p, List.mem_cons_of_mem _ (List.mem_append_right _ (List.mem_cons_of_mem _ hp)),
          hplace⟩
  · obtain ⟨hstart, hothers⟩ := List.forall_mem_cons.mp hg.start
    obtain ⟨hwithin, hbehind⟩ := List.forall_mem_append.mp hothers
    have hsource := hinner.source ⟨hg.other, hwithin⟩
    have hsource' := hrest.source ⟨hg.other, hbehind⟩
    rw [List.nil_append] at hsource hsource'
    have hwrite : (g (tagName false content :: opened) ⟨gap, token⟩).source = _ :=
      hstart ⟨gap, token⟩ htoken
    rw [Segment.source] at hwrite
    rw [hlocated, List.map_cons, List.map_append, List.map_cons, Segment.sourceAll_cons,
      Segment.sourceAll_append, Segment.sourceAll_cons]
    dsimp only
    rw [hwrite, hg.other _ ⟨gap₁, token'⟩ hclose.isStart_closing, hclose.text]
    simp [rewriteAt, hsource, hsource', Event.start]

end Locates

/-- **The segments of markup stand where its start tags do.** -/
theorem Spans.exists_locates (h : w.Spans gap segments gap' segments') (opened : List Text)
    (f : Place → Text) (g : List Text → Segment → Segment) :
    ∃ own, segments = own ++ segments' ∧ w.Locates opened f g gap gap' own := by
  induction w generalizing gap segments gap' segments' opened with
  | nil =>
    obtain ⟨rfl, rfl⟩ := h
    exact ⟨[], rfl, .at_end opened f g _⟩
  | inert event hinert rest ih =>
    rw [Spans] at h
    split at h
    · obtain ⟨own, rfl, hrest⟩ := ih h opened
      exact ⟨own, rfl, hrest.text hinert⟩
    · obtain ⟨token, others, rfl, htoken, htext, h⟩ := h
      obtain ⟨own, rfl, hrest⟩ := ih h opened
      exact ⟨⟨gap, token⟩ :: own, rfl, hrest.inert hinert htoken htext⟩
  | empty content rest ih =>
    obtain ⟨token, others, rfl, htoken, h⟩ := h
    obtain ⟨own, rfl, hrest⟩ := ih h opened
    exact ⟨⟨gap, token⟩ :: own, rfl, hrest.empty htoken⟩
  | node content inside close rest ihinside ih =>
    obtain ⟨token, inner, gap₁, token', others, rfl, htoken, hinside, hclose, h⟩ := h
    obtain ⟨own₁, rfl, hinner⟩ := ihinside hinside (tagName false content :: opened)
    obtain ⟨own₂, rfl, hrest⟩ := ih h opened
    exact ⟨⟨gap, token⟩ :: (own₁ ++ ⟨gap₁, token'⟩ :: own₂), by simp,
      .node htoken hclose hinner hrest⟩

/-! ## Edits of documents -/

/-- Every start tag of a document is the start tag of a segment among the same elements. -/
theorem Document.exists_located (h : w.Document) (hx : x ∈ w.placed []) :
    ∃ p ∈ Segment.located [] (scan w.source).segments, p.1 = x.names ∧ IsTokenAt p.2.token x := by
  obtain ⟨hspans, -⟩ := spans_scan h.lexed h.scannable
  obtain ⟨own, hown, hlocates⟩ := hspans.exists_locates [] Place.content fun _ s => s
  rw [hown, List.append_nil]
  exact hlocates.place x hx

/-- What an edit makes of the start tag at a place. -/
def editedContent (d : Dialect) (edit : List Text → Token → Text) (x : Place) : Text :=
  if d.withholds x.names = true then x.content
  else contentOf x.selfClosing (edit x.names.tail (.ofStart x.selfClosing x.content))

/-- **An edit rewrites the start tags of a document** outside the blocks of declarations,
where they stand. -/
theorem Document.reviseText_edits {σ : Type} {d : Dialect} {act : σ → Token → σ × Action}
    {flags : σ → List Text → Prop} {edit : List Text → Token → Text} {memory : σ}
    (h : w.Document) (hedits : Edits d act flags edit) (hflags : flags memory [])
    (hunplaced : ∀ opened token, edit opened { token with start := 0 } = edit opened token)
    (hwrites : ∀ x ∈ w.placed [], d.withholds x.names = false → ∃ content',
      edit x.names.tail (.ofStart x.selfClosing x.content) =
        (Event.start x.selfClosing content').source) :
    reviseText act memory w.source =
      ⟨(w.rewriteAt (editedContent d edit) []).source, true⟩ := by
  have hwritesAt : w.WritesAt [] (editedContent d edit) (edited d edit) := by
    refine ⟨fun names s hstart => edited_of_not_isStart hstart, fun x hx s hs => ?_⟩
    rw [editedContent]
    split
    · next hnames => rw [edited_of_withholds hnames, Segment.source, hs.text]
    · next hnames =>
      have hnames' : d.withholds x.names = false := Bool.eq_false_iff.mpr hnames
      obtain ⟨content', hcontent⟩ := hwrites x hx hnames'
      rw [edited_of_isStart (isStart_of_isToken x.selfClosing hs) hnames', Segment.source,
        Segment.retag, ← hunplaced, hs.ofStart_eq, hcontent, contentOf_source]
  obtain ⟨hspans, hclean⟩ := spans_scan h.lexed h.scannable
  obtain ⟨own, hown, hlocates⟩ := hspans.exists_locates [] (editedContent d edit) (edited d edit)
  have hsource := hlocates.source hwritesAt
  rw [List.append_nil] at hown
  rw [List.nil_append] at hsource
  rw [reviseText, hclean, hedits.revise_eq hflags, hown, hsource]

end Markup

/-! ## Blocks of declarations -/

/-- Whether the content of a start tag is that of a block of declarations. -/
def Dialect.shuts (d : Dialect) (content : Text) : Bool :=
  decide (localOf (tagName false content) = d.declarations)

/-- A start tag that does not stand in a block of declarations has a place outside of
them. -/
theorem Markup.exists_place_of_exposed {w : Markup} {d : Dialect} {selfClosing : Bool}
    {content : Text} {opened : List Text} (h : (selfClosing, content) ∈ w.exposed d.shuts)
    (hopened : d.withholds opened = false) :
    ∃ names, ⟨tagName selfClosing content :: names, selfClosing, content⟩ ∈ w.placed opened ∧
      d.withholds names = false := by
  induction w generalizing opened with
  | nil => cases h
  | inert event hinert rest ih => exact ih h hopened
  | empty other rest ih =>
    rcases List.mem_cons.mp h with heq | h
    · cases heq
      exact ⟨opened, List.mem_cons_self, hopened⟩
    · obtain ⟨names, hmem, hnames⟩ := ih h hopened
      exact ⟨names, List.mem_cons_of_mem _ hmem, hnames⟩
  | node other inside close rest ihinside ih =>
    rcases List.mem_cons.mp h with heq | h
    · cases heq
      exact ⟨opened, List.mem_cons_self, hopened⟩
    · rcases List.mem_append.mp h with h | h
      · split at h
        · cases h
        · next hshut =>
          have hinner : d.withholds (tagName false other :: opened) = false := by
            rw [Dialect.withholds_of_not_block fun hblock => hshut (decide_eq_true hblock), hopened]
          obtain ⟨names, hmem, hnames⟩ := ihinside h hinner
          exact ⟨names, List.mem_cons_of_mem _ (List.mem_append_left _ hmem), hnames⟩
      · obtain ⟨names, hmem, hnames⟩ := ih h hopened
        exact ⟨names, List.mem_cons_of_mem _ (List.mem_append_right _ hmem), hnames⟩

end SkinMarkup
