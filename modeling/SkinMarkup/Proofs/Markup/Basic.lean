import SkinMarkup.Proofs.Document.Outline
import SkinMarkup.Proofs.Event.Whole
import SkinMarkup.Proofs.Tag.Bare
import SkinMarkup.Proofs.Text.Entities

/-!
# Written documents

`Markup` is the grammar of documents: what stands between two tags is again
markup, and every start tag has its end tag. `exists_markup_of_depthAfter` says
that every sequence of events in which tags are balanced has this form.

Markup is lexed if it is cut into its own events, and readable if everything in
it can be read. The tags that are read from it are `Markup.tags`. They stand
nowhere, so that two documents can be compared by their tags.
-/

namespace SkinMarkup

/-! ## Start tags -/

/-- A name with a written value, after references have been replaced. -/
def readEntry (entry : Text × Text) : Option (Text × Text) :=
  (unescape entry.2).toOption.map fun value => (entry.1, value)

/-- The names and values of the attributes in the content of a start tag, if
they can be read. -/
def entriesOf? (content : Text) : Option (List (Text × Text)) :=
  match WrittenAttribute.readAll content with
  | (written, none) => (written.map WrittenAttribute.entry).mapM readEntry
  | (_, some _) => none

theorem readEntry_eq_some {entry entry' : Text × Text} :
    readEntry entry = some entry' ↔ entry'.1 = entry.1 ∧ unescape entry.2 = .ok entry'.2 := by
  obtain ⟨name, value⟩ := entry
  obtain ⟨name', value'⟩ := entry'
  rw [readEntry]
  dsimp only
  cases unescape value with
  | error fault => simp [Except.toOption]
  | ok read => simp [Except.toOption, eq_comm]

theorem mapM_readEntry_cons {entry : Text × Text} {entries read : List (Text × Text)} :
    (entry :: entries).mapM readEntry = some read ↔
      ∃ first others, readEntry entry = some first ∧ entries.mapM readEntry = some others ∧
        read = first :: others := by
  rw [List.mapM_cons]
  cases readEntry entry with
  | none => simp
  | some first =>
    cases entries.mapM readEntry with
    | none => simp
    | some others => simp [eq_comm]

/-- Reading values keeps the names. -/
theorem map_fst_of_mapM_readEntry {entries read : List (Text × Text)}
    (h : entries.mapM readEntry = some read) : read.map Prod.fst = entries.map Prod.fst := by
  induction entries generalizing read with
  | nil =>
    cases h
    rfl
  | cons entry entries ih =>
    obtain ⟨first, others, hfirst, hothers, rfl⟩ := mapM_readEntry_cons.mp h
    rw [List.map_cons, List.map_cons, ih hothers, (readEntry_eq_some.mp hfirst).1]

/-- The names and values of the attributes in the content of a start tag. -/
def entriesOf (content : Text) : List (Text × Text) :=
  (entriesOf? content).getD []

/-- The tag that starts with the given content, in a place where `scopes` are in
force. -/
def Tag.ofContent (scopes : List (List Namespace)) (content : Text) (leaf : Option Leaf)
    (tags : List Tag) : Tag :=
  let name := WrittenAttribute.elementName content
  let attributes := (entriesOf content).map Attribute.ofEntry
  let uri := ((prefixOf name).bind fun p =>
    Namespace.resolve p (Attribute.declarations attributes :: scopes)).getD []
  ⟨{ TagHead.unplaced name with uri, attributes }, leaf, tags⟩

/-- The namespaces that the content of a start tag declares. -/
def declarationsOf (content : Text) : List Namespace :=
  Attribute.declarations ((entriesOf content).map Attribute.ofEntry)

/-! ## Markup -/

/-- A part of a document in which every tag is closed. -/
inductive Markup where
  | nil
  /-- Text, a CDATA section, a comment, an instruction or a declaration. -/
  | inert (event : Event) (isInert : event.elementKind? = none) (rest : Markup)
  /-- An empty element `<content/>`. -/
  | empty (content : Text) (rest : Markup)
  /-- An element `<content>inside</close>`. -/
  | node (content : Text) (inside : Markup) (close : Text) (rest : Markup)

theorem Event.elementKind?_text (raw : Text) : (Event.text raw).elementKind? = none := rfl

theorem Event.elementKind?_cdata (content : Text) : (Event.cdata content).elementKind? = none := rfl

namespace Markup

/-- The events of markup in document order. -/
def events : Markup → List Event
  | nil => []
  | inert event _ rest => event :: rest.events
  | empty content rest => .empty content :: rest.events
  | node content inside close rest =>
    .opening content :: (inside.events ++ .closing close :: rest.events)

section

variable {event : Event} {hinert : event.elementKind? = none} {content close : Text}
  {inside rest : Markup}

theorem events_behind_inert : rest.events ⊆ (inert event hinert rest).events :=
  List.subset_cons_self _ _

theorem events_behind_empty : rest.events ⊆ (empty content rest).events :=
  List.subset_cons_self _ _

theorem events_behind_node : rest.events ⊆ (node content inside close rest).events :=
  List.subset_cons_of_subset _
    (List.subset_append_of_subset_right _ (List.subset_cons_self _ _))

theorem events_inside_node : inside.events ⊆ (node content inside close rest).events :=
  List.subset_cons_of_subset _ (List.subset_append_left _ _)

end

/-- The text of markup. -/
def source (w : Markup) : Text :=
  w.events.flatMap Event.source

@[simp]
theorem source_nil : source nil = [] := rfl

@[simp]
theorem source_inert (event : Event) (h : event.elementKind? = none) (rest : Markup) :
    (inert event h rest).source = event.source ++ rest.source := rfl

@[simp]
theorem source_empty (content : Text) (rest : Markup) :
    (empty content rest).source = (Event.empty content).source ++ rest.source := rfl

@[simp]
theorem source_node (content : Text) (inside : Markup) (close : Text) (rest : Markup) :
    (node content inside close rest).source =
      (Event.opening content).source ++ inside.source ++ (Event.closing close).source ++
        rest.source := by
  simp [source, events]

/-- **Balanced events are those of markup.** If elements are open before them,
the markup ends at the first end tag that is not its own. -/
theorem exists_markup_of_depthAfter (events : List Event) (depth : Nat)
    (h : Event.depthAfter depth events = some 0) :
    (depth = 0 ∧ ∃ w : Markup, events = w.events) ∨
      ∃ outer, depth = outer + 1 ∧ ∃ (w : Markup) (close : Text) (rest : List Event),
        events = w.events ++ .closing close :: rest ∧ Event.depthAfter outer rest = some 0 := by
  match events with
  | [] =>
    cases h
    exact Or.inl ⟨rfl, nil, rfl⟩
  | event :: others =>
    rw [Event.depthAfter_cons] at h
    obtain ⟨next, hfirst, hothers⟩ := Option.bind_eq_some_iff.mp h
    cases hkind : event.elementKind? with
    | none =>
      simp only [Event.depthAfter, hkind, Option.some.injEq] at hfirst
      subst hfirst
      rcases exists_markup_of_depthAfter others depth hothers with
        ⟨rfl, w, rfl⟩ | ⟨outer, rfl, w, close, rest, rfl, hrest⟩
      · exact Or.inl ⟨rfl, inert event hkind w, rfl⟩
      · exact Or.inr ⟨outer, rfl, inert event hkind w, close, rest, rfl, hrest⟩
    | some kind =>
      cases event with
      | text raw => cases hkind
      | cdata content => cases hkind
      | aside raw => cases hkind
      | empty content =>
        cases hfirst
        rcases exists_markup_of_depthAfter others depth hothers with
          ⟨rfl, w, rfl⟩ | ⟨outer, rfl, w, close, rest, rfl, hrest⟩
        · exact Or.inl ⟨rfl, empty content w, rfl⟩
        · exact Or.inr ⟨outer, rfl, empty content w, close, rest, rfl, hrest⟩
      | closing content =>
        cases depth with
        | zero => cases hfirst
        | succ depth =>
          cases hfirst
          exact Or.inr ⟨_, rfl, nil, content, others, rfl, hothers⟩
      | opening content =>
        cases hfirst
        -- The element ends inside `others`, and markup goes on behind it.
        rcases exists_markup_of_depthAfter others (depth + 1) hothers with
          ⟨hzero, -⟩ | ⟨outer, houter, inside, close, rest, rfl, hrest⟩
        · cases hzero
        · obtain rfl : outer = depth := by omega
          have hlength : rest.length < (inside.events ++ .closing close :: rest).length + 1 := by
            simp
            omega
          rcases exists_markup_of_depthAfter rest outer hrest with
            ⟨rfl, w, rfl⟩ | ⟨outer', rfl, w, close', rest', rfl, hrest'⟩
          · exact Or.inl ⟨rfl, node content inside close w, rfl⟩
          · refine Or.inr ⟨outer', rfl, node content inside close w, close', rest', ?_, hrest'⟩
            simp [Markup.events]
termination_by events.length

/-! ## Proper markup -/

/-- Whether markup starts with a run of text. -/
def startsText : Markup → Bool
  | inert event _ _ => event.isText
  | _ => false

end Markup

/-- An event whose references can be read. -/
def Event.Readable : Event → Prop
  | text raw => ∃ content, unescape raw = .ok content
  | _ => True

namespace Markup

/-- Markup that is cut into its own events: each of them is whole, and no run of
text is divided. -/
def Lexed : Markup → Prop
  | nil => True
  | inert event _ rest =>
    event.Whole ∧ (event.isText = true → rest.startsText = false) ∧ rest.Lexed
  | empty content rest => (Event.empty content).Whole ∧ rest.Lexed
  | node content inside close rest =>
    (Event.opening content).Whole ∧ inside.Lexed ∧ (Event.closing close).Whole ∧ rest.Lexed

/-- Markup with proper references and attributes, in which end tags fit their
start tags. -/
def Readable : Markup → Prop
  | nil => True
  | inert event _ rest => event.Readable ∧ rest.Readable
  | empty content rest => (entriesOf? content).isSome = true ∧ rest.Readable
  | node content inside close rest =>
    (entriesOf? content).isSome = true ∧ inside.Readable ∧
      WrittenAttribute.elementName content = Event.endName close ∧ rest.Readable

/-- Markup outside all elements. -/
def Outer : Markup → Prop
  | nil => True
  | inert event _ rest => (∀ raw, event = .text raw → Blanks raw) ∧ rest.Outer
  | empty _ _ => False
  | node _ _ _ _ => False

/-- Markup with one element that is not inside another one. -/
def Single : Markup → Prop
  | nil => False
  | inert event _ rest => (∀ raw, event = .text raw → Blanks raw) ∧ rest.Single
  | empty _ rest => rest.Outer
  | node _ _ _ rest => rest.Outer

/-! ## What is read from markup -/

/-- The leaf that an inert event gives to a tag without children. -/
def leafOf? : Event → Option Leaf
  | .text raw =>
    match unescape raw with
    | .ok content => if trim content = [] then none else some ⟨.text, trim content, ⟨0, 0⟩⟩
    | .error _ => none
  | .cdata content => if trim content = [] then none else some ⟨.cdata, trim content, ⟨0, 0⟩⟩
  | _ => none

/-- The leaf of a tag with the given markup inside: the first one that stands
before all elements. -/
def leaf? : Markup → Option Leaf
  | nil => none
  | inert event _ rest => (leafOf? event).or rest.leaf?
  | empty _ _ => none
  | node _ _ _ _ => none

/-- The tags in markup, where `scopes` are in force. -/
def tags (scopes : List (List Namespace)) : Markup → List Tag
  | nil => []
  | inert _ _ rest => rest.tags scopes
  | empty content rest => Tag.ofContent scopes content none [] :: rest.tags scopes
  | node content inside _ rest =>
    Tag.ofContent scopes content inside.leaf? (inside.tags (declarationsOf content :: scopes)) ::
      rest.tags scopes

theorem tags_of_outer {w : Markup} (h : w.Outer) (scopes : List (List Namespace)) :
    w.tags scopes = [] := by
  induction w with
  | nil => rfl
  | inert event _ rest ih => exact ih h.2
  | empty content rest ih => cases h
  | node content inside close rest ihinside ih => cases h

/-! ## Lexing -/

/-- In front of a `<` lexed markup that starts with no text starts with a `<`
too. -/
theorem head?_of_not_startsText {w : Markup} (hw : w.Lexed) (hstart : w.startsText = false)
    {rest : Text} (hrest : ∀ d ∈ rest.head?, d = '<') : ∀ d ∈ (w.source ++ rest).head?, d = '<' := by
  cases w with
  | nil => exact hrest
  | inert event h more =>
    obtain ⟨hwhole, -⟩ := hw
    have htext : event.isText = true → ∀ d ∈ (more.source ++ rest).head?, d = '<' := by
      intro htext
      cases htext.symm.trans hstart
    have hfirst : ∃ cs, event.source = '<' :: cs := by
      cases event with
      | text raw => cases hstart
      | opening content => cases h
      | empty content => cases h
      | closing content => cases h
      | cdata content => exact ⟨_, rfl⟩
      | aside raw =>
        obtain ⟨cs, hcs, -⟩ := hwhole []
        exact ⟨cs, by simpa using hcs⟩
    obtain ⟨cs, hcs⟩ := hfirst
    rw [source_inert, hcs]
    rintro d ⟨⟩
    rfl
  | empty content more =>
    rintro d ⟨⟩
    rfl
  | node content inside close more =>
    rintro d ⟨⟩
    rfl

/-- **Lexed markup is cut into its own events,** in front of the end or of other
markup. -/
theorem lexFrom_source {w : Markup} (hw : w.Lexed) (offset : Nat) {rest : Text}
    (hrest : ∀ d ∈ rest.head?, d = '<') :
    Event.lexFrom offset (w.source ++ rest) =
      (w.events ++ (Event.lexFrom (offset + width w.source) rest).1,
        (Event.lexFrom (offset + width w.source) rest).2) := by
  induction w generalizing offset rest with
  | nil => simp [events]
  | inert event h more ih =>
    obtain ⟨hwhole, hseparate, hmore⟩ := hw
    obtain ⟨c, cs, hcs, hnext⟩ := hwhole.next_eq (more.source ++ rest) fun htext =>
      head?_of_not_startsText hmore (hseparate htext) hrest
    rw [source_inert, List.append_assoc, hcs, Event.lexFrom_cons offset hnext, ih hmore _ hrest,
      width_append, Nat.add_assoc]
    rfl
  | empty content more ih =>
    obtain ⟨hwhole, hmore⟩ := hw
    obtain ⟨cs, hcs, hnext⟩ := hwhole (more.source ++ rest)
    rw [source_empty, List.append_assoc, hcs, Event.lexFrom_cons offset hnext, ih hmore _ hrest,
      width_append, Nat.add_assoc]
    rfl
  | node content inside close more ihinside ih =>
    obtain ⟨hopening, hinside, hclosing, hmore⟩ := hw
    have hclose : ∀ d ∈ ((Event.closing close).source ++ (more.source ++ rest)).head?, d = '<' := by
      rintro d ⟨⟩
      rfl
    obtain ⟨cs, hcs, hnext⟩ :=
      hopening (inside.source ++ ((Event.closing close).source ++ (more.source ++ rest)))
    obtain ⟨ds, hds, hnext'⟩ := hclosing (more.source ++ rest)
    have hinner := ihinside hinside (offset + width (Event.opening content).source) hclose
    rw [hds, Event.lexFrom_cons _ hnext', ih hmore _ hrest, ← hds] at hinner
    simp only [source_node, List.append_assoc, events, List.cons_append, width_append,
      ← Nat.add_assoc] at hinner ⊢
    rw [hcs, Event.lexFrom_cons offset hnext, hinner]

theorem lex_source {w : Markup} (hw : w.Lexed) : Event.lex w.source = (w.events, none) := by
  have hnil : ∀ d ∈ ([] : Text).head?, d = '<' := by rintro d ⟨⟩
  have h := lexFrom_source hw 0 hnil
  rw [Event.lexFrom_nil, List.append_nil, List.append_nil] at h
  exact h

/-- **Markup whose events are cut off a text is lexed,** and the text starts with
it. -/
theorem lexed_of_lexFrom (w : Markup) {offset : Nat} {t : Text} {more : List Event}
    (h : Event.lexFrom offset t = (w.events ++ more, none)) :
    w.Lexed ∧ ∃ rest, t = w.source ++ rest ∧
      Event.lexFrom (offset + width w.source) rest = (more, none) := by
  induction w generalizing offset t more with
  | nil => exact ⟨trivial, t, rfl, h⟩
  | inert event hkind others ih =>
    obtain ⟨c, cs, after, rfl, hnext, hothers⟩ := Event.lexFrom_eq_cons h
    obtain ⟨hwhole, hseparate⟩ := Event.whole_of_next hnext
    obtain ⟨hlexed, rest, rfl, hrest⟩ := ih hothers
    refine ⟨⟨hwhole, ?_, hlexed⟩, rest, ?_, ?_⟩
    · -- Text after text would have been cut off together with it.
      intro htext
      cases others with
      | inert event' _ _ =>
        cases event' with
        | text raw =>
          obtain ⟨⟨hne, hmem⟩, -⟩ := hlexed
          obtain ⟨d, ds, rfl⟩ := List.exists_cons_of_ne_nil hne
          exact absurd (hseparate htext d rfl ▸ List.mem_cons_self) hmem
        | _ => rfl
      | _ => rfl
    · rw [source_inert, List.append_assoc, Event.next_source hnext]
    · rw [source_inert, width_append, ← Nat.add_assoc]
      exact hrest
  | empty content others ih =>
    obtain ⟨c, cs, after, rfl, hnext, hothers⟩ := Event.lexFrom_eq_cons h
    obtain ⟨hlexed, rest, rfl, hrest⟩ := ih hothers
    refine ⟨⟨(Event.whole_of_next hnext).1, hlexed⟩, rest, ?_, ?_⟩
    · rw [source_empty, List.append_assoc, Event.next_source hnext]
    · rw [source_empty, width_append, ← Nat.add_assoc]
      exact hrest
  | node content inside close others ihinside ih =>
    simp only [events, List.cons_append, List.append_assoc] at h
    obtain ⟨c, cs, after, rfl, hnext, hinside⟩ := Event.lexFrom_eq_cons h
    obtain ⟨hlexed, middle, rfl, hmiddle⟩ := ihinside hinside
    obtain ⟨d, ds, after', rfl, hnext', hothers⟩ := Event.lexFrom_eq_cons hmiddle
    obtain ⟨hlexed', rest, rfl, hrest⟩ := ih hothers
    refine ⟨⟨(Event.whole_of_next hnext).1, hlexed, (Event.whole_of_next hnext').1, hlexed'⟩,
      rest, ?_, ?_⟩
    · rw [source_node, List.append_assoc, List.append_assoc, List.append_assoc,
        Event.next_source hnext', Event.next_source hnext]
    · simp only [source_node, width_append, ← Nat.add_assoc]
      exact hrest

end Markup

end SkinMarkup
