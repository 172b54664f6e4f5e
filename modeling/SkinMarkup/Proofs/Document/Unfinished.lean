import SkinMarkup.Proofs.Document.Reading

/-!
# Where tags end

The events before a start tag, those up to its end tag and those behind it make up the
text. A tag that has ended (`Tag.Ended`) has its own end tag: what stands between the two
closes whatever it opens.

The tags that are still open stand one behind the other. Behind the start tag of the last
nothing is left open, and the one around it was the last before that, and so on
(`Builder.Unfinished`). Every step keeps this (`Builder.Step.grown`), and so does a run
(`Builder.run_grown`).
-/

namespace SkinMarkup

/-! ## Events in order -/

namespace Event

/-- The text of events that follow one another. -/
def sources (events : List Event) : Text :=
  events.flatMap source

/-- Events that close whatever they open and nothing else. -/
def Balanced (events : List Event) : Prop :=
  depthAfter 0 events = some 0

/-- Events that close nothing but what they opened. -/
def ClosesOwn (events : List Event) : Prop :=
  ∃ depth, depthAfter 0 events = some depth

variable {events more : List Event} {depth depth' : Nat}

@[simp]
theorem sources_append (events more : List Event) :
    sources (events ++ more) = sources events ++ sources more :=
  List.flatMap_append

@[simp]
theorem sources_singleton (event : Event) : sources [event] = event.source :=
  List.flatMap_singleton source event

theorem width_sources_concat (events : List Event) (event : Event) :
    width (sources (events ++ [event])) = width (sources events) + width event.source := by
  rw [sources_append, sources_singleton, width_append]

/-- A text that is cut up to its end is the text of its events. -/
theorem sources_of_lexFrom {offset : Nat} {t : Text} (h : lexFrom offset t = (events, none)) :
    sources events = t := by
  fun_induction lexFrom offset t generalizing events with
  | case1 offset =>
    cases h
    rfl
  | case2 offset c cs fault distance hnext => cases h
  | case3 offset c cs event rest hnext _ events' fault hrest ih =>
    cases h
    show event.source ++ sources events' = c :: cs
    rw [ih hrest, next_source hnext]

theorem depthAfter_append (depth : Nat) (events more : List Event) :
    depthAfter depth (events ++ more) =
      (depthAfter depth events).bind fun depth => depthAfter depth more := by
  induction events generalizing depth with
  | nil => rfl
  | cons event events ih =>
    rw [List.cons_append, depthAfter_cons, depthAfter_cons depth event events, Option.bind_assoc]
    congr 1
    ext1 next
    exact ih next

/-- Elements that are open around events stay open behind them. -/
theorem depthAfter_add (k : Nat) (h : depthAfter depth events = some depth') :
    depthAfter (depth + k) events = some (depth' + k) := by
  induction events generalizing depth with
  | nil =>
    cases h
    rfl
  | cons event events ih =>
    rw [depthAfter_cons] at h ⊢
    obtain ⟨next, hevent, hevents⟩ := Option.bind_eq_some_iff.mp h
    have hnext : depthAfter (depth + k) [event] = some (next + k) := by
      cases event <;> cases depth <;> cases hevent <;>
        simp +arith [depthAfter, elementKind?, TokenKind.depthAfter]
    rw [hnext]
    exact ih hevents

theorem Balanced.append (h : Balanced events) (hmore : Balanced more) :
    Balanced (events ++ more) := by
  show depthAfter 0 (events ++ more) = some 0
  rw [depthAfter_append, show depthAfter 0 events = some 0 from h]
  exact hmore

/-- Events between a start tag and its end tag balance, and so do the three together. -/
theorem Balanced.enclose (h : Balanced events) (first last : Text) :
    Balanced (.opening first :: (events ++ [.closing last])) := by
  show depthAfter 1 (events ++ [.closing last]) = some 0
  rw [depthAfter_append, depthAfter_add 1 h]
  rfl

theorem Balanced.closesOwn_append (h : Balanced events) (hmore : ClosesOwn more) :
    ClosesOwn (events ++ more) := by
  obtain ⟨depth, hdepth⟩ := hmore
  refine ⟨depth, ?_⟩
  rw [depthAfter_append, show depthAfter 0 events = some 0 from h]
  exact hdepth

theorem ClosesOwn.cons_opening (h : ClosesOwn events) (content : Text) :
    ClosesOwn (.opening content :: events) := by
  obtain ⟨depth, hdepth⟩ := h
  exact ⟨depth + 1, depthAfter_add 1 hdepth⟩

/-- An event that is no tag balances. -/
theorem balanced_of_elementKind? {event : Event} (h : event.elementKind? = none) :
    Balanced [event] := by
  show depthAfter 0 [event] = some 0
  rw [depthAfter, h]
  rfl

end Event

/-! ## Where tags end -/

namespace Tag

/-- A tag whose start tag is the next event behind `before`. -/
structure StartsBehind (before : List Event) (selfClosing : Bool) (content : Text) (tag : Tag) :
    Prop where
  name : tag.name = WrittenAttribute.elementName content
  start : tag.head.start = width (Event.sources before)
  startTagEnd : tag.head.startTagEnd =
    width (Event.sources (before ++ [Event.start selfClosing content]))
  selfClosing : tag.head.selfClosing = selfClosing

/-- A tag with an end among the events. -/
inductive Ended (events : List Event) (tag : Tag) : Prop where
  /-- An empty element ends where it is written. -/
  | empty {before after : List Event} {content : Text}
      (hevents : events = before ++ .empty content :: after)
      (hstarts : tag.StartsBehind before true content)
      (hendTag : tag.head.endTagStart = tag.head.startTagEnd)
      (hstop : tag.head.stop = tag.head.startTagEnd)
  /-- The end tag of any other has its name, and what stands between the two balances. -/
  | closed {before inner after : List Event} {first last : Text}
      (hevents : events = (before ++ .opening first :: inner) ++ .closing last :: after)
      (hinner : Event.Balanced inner)
      (hstarts : tag.StartsBehind before false first)
      (hname : Event.endName last = tag.name)
      (hendTag : tag.head.endTagStart = width (Event.sources (before ++ .opening first :: inner)))
      (hstop : tag.head.stop =
        width (Event.sources ((before ++ .opening first :: inner) ++ [.closing last])))

variable {before events : List Event} {selfClosing : Bool} {content : Text} {tag : Tag}
  {ts : List Tag}

theorem Ended.append (h : tag.Ended events) (more : List Event) : tag.Ended (events ++ more) := by
  cases h with
  | @empty before after content hevents hstarts hendTag hstop =>
    have hmore : events ++ more = before ++ .empty content :: (after ++ more) := by
      rw [hevents, List.append_assoc, List.cons_append]
    exact .empty hmore hstarts hendTag hstop
  | @closed before inner after first last hevents hinner hstarts hname hendTag hstop =>
    have hmore : events ++ more =
        (before ++ .opening first :: inner) ++ .closing last :: (after ++ more) := by
      rw [hevents, List.append_assoc, List.cons_append]
    exact .closed hmore hinner hstarts hname hendTag hstop

theorem everywhere_ended_append (h : Everywhere (Ended events) ts) (more : List Event) :
    Everywhere (Ended (events ++ more)) ts :=
  fun x hx => (h x hx).append more

end Tag

/-! ## Steps of a builder -/

namespace Builder

open Event (Balanced sources)
open Tag (Ended everywhere_nil everywhere_cons everywhere_append)

/-- Open tags behind events, innermost first. Behind the start tag of each there are
the events of its children, which have ended, and then the start tag of the next. -/
inductive Unfinished : List Event → List Tag → Prop where
  | nil {events : List Event} (hevents : Balanced events) : Unfinished events []
  | cons {before inner : List Event} {content : Text} {tag : Tag} {others : List Tag}
      (hothers : Unfinished before others) (hinner : Balanced inner)
      (hstarts : tag.StartsBehind before false content)
      (hended : Tag.Everywhere (Ended (before ++ .opening content :: inner)) tag.tags) :
      Unfinished (before ++ .opening content :: inner) (tag :: others)

/-- What a builder has after it has taken in events. -/
structure Grown (events : List Event) (b : Builder) : Prop where
  root : Tag.Everywhere (Ended events) b.root.toList
  opened : Unfinished events b.opened

variable {s : Source} {b next : Builder} {events more : List Event} {event : Event} {tag : Tag}
  {opened others : List Tag}

theorem Unfinished.depthAfter_eq (h : Unfinished events opened) :
    Event.depthAfter 0 events = some opened.length := by
  induction h with
  | nil hevents => exact hevents
  | @cons before inner content tag others hothers hinner hstarts hended ih =>
    rw [Event.depthAfter_append, ih, Option.bind_some, Event.depthAfter_cons]
    have hdepth := Event.depthAfter_add (others.length + 1) hinner
    rwa [Nat.zero_add] at hdepth

/-- Balanced events more make no difference to the tags that are open. -/
theorem Unfinished.append (h : Unfinished events opened) (hmore : Balanced more) :
    Unfinished (events ++ more) opened := by
  cases h with
  | nil hevents => exact .nil (hevents.append hmore)
  | @cons before inner content tag others hothers hinner hstarts hended =>
    have hended := Tag.everywhere_ended_append hended more
    rw [List.append_assoc, List.cons_append] at hended ⊢
    exact .cons hothers (hinner.append hmore) hstarts hended

/-- What the innermost tag has besides its head may change. -/
theorem Unfinished.replace (h : Unfinished events (tag :: others)) {new : Tag}
    (hhead : new.head = tag.head) (hended : Tag.Everywhere (Ended events) new.tags) :
    Unfinished events (new :: others) := by
  cases h with
  | cons hothers hinner hstarts _ =>
    obtain ⟨hname, hstart, hstartTagEnd, hself⟩ := hstarts
    refine .cons hothers hinner ⟨?_, ?_, ?_, ?_⟩ hended
    · rw [Tag.name, hhead]
      exact hname
    all_goals rwa [hhead]

theorem Unfinished.ended (h : Unfinished events (tag :: others)) :
    Tag.Everywhere (Ended events) tag.tags := by
  cases h with
  | cons _ _ _ hended => exact hended

theorem Grown.append (h : b.Grown events) (hmore : Balanced more) : b.Grown (events ++ more) :=
  ⟨Tag.everywhere_ended_append h.root more, h.opened.append hmore⟩

/-- A tag that has ended is taken in. -/
theorem Grown.attach (h : b.Grown events) (htag : Tag.Everywhere (Ended events) [tag]) :
    (b.attach tag).Grown events := by
  unfold Builder.attach
  split
  · next parent others hopened =>
    have hparent := h.opened
    rw [hopened] at hparent
    exact ⟨h.root, hparent.replace rfl (everywhere_append.mpr ⟨hparent.ended, htag⟩)⟩
  · next hopened =>
    refine ⟨?_, h.opened⟩
    cases hroot : b.root with
    | none => exact htag
    | some root =>
      have hended := h.root
      rwa [hroot] at hended

/-- **A step keeps what a builder has.** -/
theorem Step.grown (h : Step s b (width (sources events)) event next) (hb : b.Grown events) :
    next.Grown (events ++ [event]) := by
  have hstop := (Event.width_sources_concat events event).symm
  cases h with
  | skip hkind => exact hb.append (Event.balanced_of_elementKind? hkind)
  | leaf leaf hkind hopened =>
    obtain ⟨hroot, hopen⟩ := hb.append (Event.balanced_of_elementKind? hkind)
    rw [hopened] at hopen
    exact ⟨hroot, hopen.replace rfl hopen.ended⟩
  | opening hopen =>
    obtain ⟨-, -, attributes, -, -, rfl⟩ := openTag_eq_ok hopen
    refine ⟨Tag.everywhere_ended_append hb.root _, ?_⟩
    exact .cons hb.opened rfl ⟨rfl, rfl, hstop, rfl⟩ (everywhere_nil _)
  | @empty content _ hopen =>
    obtain ⟨-, -, attributes, -, -, rfl⟩ := openTag_eq_ok hopen
    have hempty : Balanced [.empty content] := rfl
    apply (hb.append hempty).attach
    refine everywhere_cons.mpr ⟨⟨?_, everywhere_nil _⟩, everywhere_nil _⟩
    exact .empty rfl ⟨rfl, rfl, hstop, rfl⟩ rfl rfl
  | @closing content tag others hopened hname =>
    obtain ⟨hroot, hopen⟩ := hb
    rw [hopened] at hopen
    have hended := Tag.everywhere_ended_append hopen.ended [.closing content]
    cases hopen with
    | @cons before inner first _ _ hothers hinner hstarts _ =>
      -- For the tags around it, the tag is one more balanced run of events.
      have hothers := hothers.append (hinner.enclose first content)
      rw [← List.cons_append, ← List.append_assoc] at hothers
      have hrest : Grown ((before ++ .opening first :: inner) ++ [.closing content])
          { b with opened := others } :=
        ⟨Tag.everywhere_ended_append hroot _, hothers⟩
      refine hrest.attach (everywhere_cons.mpr ⟨⟨?_, hended⟩, everywhere_nil _⟩)
      exact .closed rfl hinner ⟨hstarts.name, hstarts.start, hstarts.startTagEnd,
        hstarts.selfClosing⟩ hname.symm rfl hstop

theorem grown_start : start.Grown [] :=
  ⟨everywhere_nil _, .nil rfl⟩

/-- **What a builder has when it comes to the end of the events.** -/
theorem run_grown {taken : List Event} (hb : b.Grown taken) (hregular : b.Regular)
    (hrun : b.run s (width (sources taken)) events = (next, none)) :
    next.Grown (taken ++ events) ∧ next.Regular := by
  induction events generalizing b taken with
  | nil =>
    cases hrun
    rw [List.append_nil]
    exact ⟨hb, hregular⟩
  | cons event events ih =>
    obtain ⟨middle, hstep, hrun⟩ := run_cons_eq_none hrun
    rw [← Event.width_sources_concat] at hrun
    have hend := ih (hstep.grown hb) (hstep.regular hregular) hrun
    rwa [List.append_assoc, List.singleton_append] at hend

end Builder

end SkinMarkup
