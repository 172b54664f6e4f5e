import SkinMarkup.Proofs.Markup.Basic

/-!
# Reading written documents

A builder that reads markup inside an open tag adds the tags and the leaf of the
markup to it, if the markup is readable, and fails otherwise: `run_inside`.
Outside all tags it takes one element and nothing but blanks around it. So the
documents are the texts of lexed and readable markup with a single element, and
their tree is the tag of that element: `exists_markup_of_parseStrict` and
`exists_parseStrict_of_markup`.
-/

namespace SkinMarkup

/-! ## Start tags -/

/-- Reading and placing attributes keeps their names and values. -/
theorem map_entry_mapM_place (offset : Nat) (tag : TagText) (written : List WrittenAttribute) :
    ((written.mapM (WrittenAttribute.place offset tag)).toOption.map
        (·.map Attribute.entry)) =
      (written.map WrittenAttribute.entry).mapM readEntry := by
  induction written with
  | nil => rfl
  | cons a written ih =>
    rw [List.mapM_cons, List.map_cons, List.mapM_cons, ← ih, WrittenAttribute.entry, readEntry]
    cases hplace : a.place offset tag with
    | error fault =>
      have hvalue : (unescape a.value).toOption = none := by
        unfold WrittenAttribute.place at hplace
        split at hplace
        · next heq => rw [heq]; rfl
        · split at hplace <;> cases hplace
      rw [hvalue]
      rfl
    | ok first =>
      obtain ⟨hname, hvalue⟩ := WrittenAttribute.place_eq_ok hplace
      rw [hvalue, ← hname]
      cases written.mapM (WrittenAttribute.place offset tag) with
      | error fault => rfl
      | ok others => rfl

/-- **The entries of a start tag are its attributes,** wherever they stand. -/
theorem map_entry_attributesOf (offset : Nat) (shown content : Text) :
    (attributesOf offset shown content).toOption.map (·.map Attribute.entry) =
      entriesOf? content := by
  unfold attributesOf entriesOf?
  rcases WrittenAttribute.readAll content with ⟨written, _ | fault⟩
  · dsimp only
    rw [← map_entry_mapM_place offset (TagText.ofText shown) written]
    cases written.mapM (WrittenAttribute.place offset (TagText.ofText shown)) <;> rfl
  · dsimp only
    cases written.mapM (WrittenAttribute.place offset (TagText.ofText shown)) <;> rfl

namespace Builder

variable {s : Source} {b b' : Builder} {offset : Nat} {event : Event} {content source : Text}

theorem bare_newTag {attributes : List Attribute}
    (h : entriesOf? content = some (attributes.map Attribute.entry)) :
    (b.newTag s offset content source attributes).bare =
      Tag.ofContent b.scopes content none [] := by
  have hentries : entriesOf content = attributes.map Attribute.entry := by rw [entriesOf, h]; rfl
  have hdeclared : Attribute.declarations ((attributes.map Attribute.entry).map Attribute.ofEntry) =
      Attribute.declarations attributes := by
    rw [← Attribute.map_bare, Attribute.declarations_bare]
  rw [Tag.bare_eq, Tag.ofContent, hentries, hdeclared, newTag, TagHead.bare, Attribute.map_bare]
  rfl

/-- A tag is opened exactly if its attributes can be read. -/
theorem openTag_cases (content : Text) (hshown : s.shown offset source = .ok source)
    (hroot : b.opened = [] → b.root = none) :
    ((entriesOf? content).isSome = true ∧ ∃ tag, b.openTag s offset content source = .ok tag ∧
        tag.bare = Tag.ofContent b.scopes content none []) ∨
      (¬ (entriesOf? content).isSome = true ∧
        ∃ failure, b.openTag s offset content source = .error failure) := by
  have hfirst : (b.opened.isEmpty && b.root.isSome) = false := by
    cases hopened : b.opened with
    | nil => rw [hroot hopened]; rfl
    | cons p others => rfl
  have hopen : b.openTag s offset content source =
      ((attributesOf offset source content).mapError (s.malformed offset)).map
        (b.newTag s offset content source) := by
    unfold openTag
    rw [hfirst, hshown]
    rfl
  have hentries := map_entry_attributesOf offset source content
  rw [hopen]
  cases hattributes : attributesOf offset source content with
  | error failure =>
    rw [hattributes] at hentries
    refine Or.inr ⟨by rw [← hentries]; exact Bool.false_ne_true, _, rfl⟩
  | ok attributes =>
    rw [hattributes] at hentries
    exact Or.inl ⟨by rw [← hentries]; rfl, _, rfl, bare_newTag hentries.symm⟩

end Builder

/-! ## Markup behind markup -/

namespace Markup

/-- Markup with more markup behind it. -/
def append : Markup → Markup → Markup
  | nil, more => more
  | inert event isInert rest, more => inert event isInert (rest.append more)
  | empty content rest, more => empty content (rest.append more)
  | node content inside close rest, more => node content inside close (rest.append more)

theorem events_append (w more : Markup) : (w.append more).events = w.events ++ more.events := by
  induction w with
  | nil => rfl
  | inert event hkind rest ih => rw [append, events, ih, events, List.cons_append]
  | empty content rest ih => rw [append, events, ih, events, List.cons_append]
  | node content inside close rest ihinside ih =>
    rw [append, events, ih, events, List.cons_append, List.append_assoc, List.cons_append]

theorem source_append (w more : Markup) : (w.append more).source = w.source ++ more.source := by
  rw [source, events_append, List.flatMap_append, source, source]

theorem tags_append (scopes : List (List Namespace)) (w more : Markup) :
    (w.append more).tags scopes = w.tags scopes ++ more.tags scopes := by
  induction w with
  | nil => rfl
  | inert event hkind rest ih => rw [append, tags, ih, tags]
  | empty content rest ih => rw [append, tags, ih, tags, List.cons_append]
  | node content inside close rest ihinside ih => rw [append, tags, ih, tags, List.cons_append]

theorem readable_append {w more : Markup} :
    (w.append more).Readable ↔ w.Readable ∧ more.Readable := by
  induction w with
  | nil => exact (and_iff_right trivial).symm
  | inert event hkind rest ih => rw [append, Readable, ih, Readable, and_assoc]
  | empty content rest ih => rw [append, Readable, ih, Readable, and_assoc]
  | node content inside close rest ihinside ih =>
    rw [append, Readable, ih, Readable, and_assoc, and_assoc, and_assoc]

end Markup

/-! ## Inside an open tag -/

namespace Tag

/-- An open tag after the given markup has been read inside it. -/
def absorb (scopes : List (List Namespace)) (w : Markup) (t : Tag) : Tag :=
  ⟨t.head, if t.childCount = 0 then w.leaf? else t.leaf, t.tags ++ w.tags scopes⟩

theorem childCount_bare (t : Tag) : t.bare.childCount = t.childCount := by
  simp [childCount, leafCount]

theorem childCount_eq_zero_iff {t : Tag} : t.childCount = 0 ↔ t.leaf = none ∧ t.tags = [] := by
  cases hleaf : t.leaf <;> simp [childCount, leafCount, hleaf]

theorem bare_push (t child : Tag) : (t.push child).bare = t.bare.push child.bare := by
  rw [bare_eq, bare_eq, push, push, List.map_append]
  rfl

theorem absorb_nil (scopes : List (List Namespace)) (t : Tag) : t.absorb scopes .nil = t := by
  obtain ⟨head, leaf, tags⟩ := t
  rw [absorb, Markup.tags, Markup.leaf?, List.append_nil]
  split
  · next h =>
    obtain rfl : leaf = none := (childCount_eq_zero_iff.mp h).1
    rfl
  · rfl

/-- An inert event gives a leaf to a tag without children. -/
theorem absorb_inert (scopes : List (List Namespace)) {event : Event}
    (hkind : event.elementKind? = none) (rest : Markup) (t : Tag) :
    (if t.childCount = 0 then { t with leaf := Markup.leafOf? event } else t).absorb scopes rest =
      t.absorb scopes (.inert event hkind rest) := by
  rw [absorb, absorb, Markup.tags, Markup.leaf?]
  split
  · next hcount =>
    have htags := (childCount_eq_zero_iff.mp hcount).2
    cases hleaf : Markup.leafOf? event <;> simp [childCount, leafCount, htags]
  · rfl

/-- An element that is read becomes a child, and no leaf can follow it. -/
theorem absorb_push (scopes : List (List Namespace)) {w rest : Markup} {child t : Tag}
    (htags : w.tags scopes = child :: rest.tags scopes) (hleaf : w.leaf? = none) :
    (t.push child).absorb scopes rest = t.absorb scopes w := by
  have hcount : (t.push child).childCount ≠ 0 := by
    intro h
    simp [childCount_eq_zero_iff, push] at h
  rw [absorb, if_neg hcount, absorb, htags, hleaf]
  split
  · next h => simp [push, (childCount_eq_zero_iff.mp h).1]
  · simp [push]

/-- Markup is taken in one part after the other. -/
theorem absorb_append (scopes : List (List Namespace)) (w more : Markup) (t : Tag) :
    (t.absorb scopes w).absorb scopes more = t.absorb scopes (w.append more) := by
  induction w generalizing t with
  | nil => rw [absorb_nil, Markup.append]
  | inert event hkind rest ih => rw [← absorb_inert, ih, absorb_inert, Markup.append]
  | empty content rest ih =>
    rw [← absorb_push (w := .empty content rest) scopes rfl rfl, ih, Markup.append,
      ← absorb_push (w := .empty content (rest.append more)) scopes rfl rfl]
  | node content inside close rest ihinside ih =>
    rw [← absorb_push (w := .node content inside close rest) scopes rfl rfl, ih, Markup.append,
      ← absorb_push (w := .node content inside close (rest.append more)) scopes rfl rfl]

end Tag

namespace Builder

variable {s : Source} {b b' : Builder} {offset : Nat} {content : Text} {p : Tag}
  {others : List Tag} {before after : Text}

theorem attachLeaf_eq (hopened : b.opened = p :: others) (leaf : Leaf) :
    ∃ p', b.attachLeaf leaf = { b with opened := p' :: others } ∧
      p'.bare = if p.childCount = 0 then
          { p.bare with leaf := if leaf.content = [] then none else some leaf.bare }
        else p.bare := by
  unfold attachLeaf
  rw [hopened]
  dsimp only
  split
  · next h => exact ⟨_, rfl, by rw [if_pos h.1, if_neg h.2, Tag.bare_eq, Tag.bare_eq]; rfl⟩
  · next h =>
    refine ⟨p, by rw [← hopened], ?_⟩
    split
    · next hcount =>
      have hleaf := (Tag.childCount_eq_zero_iff.mp hcount).1
      have hcontent : leaf.content = [] := by
        by_contra hne
        exact h ⟨hcount, hne⟩
      rw [if_pos hcontent, Tag.bare_eq, hleaf]
      rfl
    · rfl

/-- What an inert event does inside an open tag. -/
theorem step_inert (event : Event) (hkind : event.elementKind? = none)
    (hopened : b.opened = p :: others) (htext : s.text = before ++ event.source ++ after) :
    (event.Readable ∧ ∃ p', b.step s (width before) event = .ok { b with opened := p' :: others } ∧
        p'.bare = if p.childCount = 0 then { p.bare with leaf := Markup.leafOf? event }
          else p.bare) ∨
      (¬ event.Readable ∧ ∃ failure, b.step s (width before) event = .error failure) := by
  have hsame : ∀ leaf : Option Leaf, leaf = none → p.bare = if p.childCount = 0 then
      { p.bare with leaf := leaf } else p.bare := by
    rintro _ rfl
    split
    · next hcount => rw [Tag.bare_eq, (Tag.childCount_eq_zero_iff.mp hcount).1]; rfl
    · rfl
  have hshown := Source.shown_of_eq htext
  cases event with
  | opening content => cases hkind
  | empty content => cases hkind
  | closing content => cases hkind
  | aside raw => exact Or.inl ⟨trivial, p, by rw [← hopened]; rfl, hsame _ rfl⟩
  | cdata content =>
    obtain ⟨p', hattach, hbare⟩ := attachLeaf_eq hopened
      ⟨.cdata, trim content, ⟨width before, width before + width (Event.cdata content).source⟩⟩
    exact Or.inl ⟨trivial, p', by rw [← hattach]; rfl, hbare⟩
  | text raw =>
    rw [Event.source] at hshown
    simp only [step, stepText, hshown, bind, Except.bind, pure, Except.pure]
    by_cases hblank : trim raw = []
    · have hread := (trim_eq_nil_iff.mp hblank).unescape_eq
      refine Or.inl ⟨⟨raw, hread⟩, p, by rw [if_pos hblank, ← hopened], hsame _ ?_⟩
      simp only [Markup.leafOf?, hread, if_pos hblank]
    · cases hcontent : unescape raw with
      | error fault =>
        refine Or.inr ⟨?_, s.malformed (width before) (.textContent fault), ?_⟩
        · rintro ⟨content, hok⟩
          cases hcontent.symm.trans hok
        · rw [if_neg hblank]
          rfl
      | ok content =>
        obtain ⟨p', hattach, hbare⟩ := attachLeaf_eq hopened ⟨.text, trim content,
          ⟨width before + (width raw - width (trimStart raw)), width before + width (trimEnd raw)⟩⟩
        refine Or.inl ⟨⟨content, hcontent⟩, p', ?_, ?_⟩
        · rw [if_neg hblank, ← hattach, hopened]
          rfl
        · simp only [Markup.leafOf?, hcontent]
          exact hbare

theorem scopes_of_bare {p' : Tag} (hopened : b.opened = p :: others)
    (h : p'.bare.head = p.bare.head) :
    scopes { b with opened := p' :: others } = b.scopes := by
  have hhead : p'.head.declarations = p.head.declarations := by
    rw [← TagHead.declarations_bare, ← Tag.bare_head, h, Tag.bare_head, TagHead.declarations_bare]
  rw [scopes, scopes, hopened, List.map_cons, List.map_cons, hhead]

theorem run_of_step {event : Event} {next : Builder} (h : b.step s offset event = .ok next)
    (events : List Event) :
    b.run s offset (event :: events) = next.run s (offset + width event.source) events := by
  rw [run, h]

theorem run_of_error {event : Event} {failure : ParseFailure}
    (h : b.step s offset event = .error failure) (events : List Event) :
    (b.run s offset (event :: events)).2 ≠ none := by
  rw [run, h]
  exact Option.some_ne_none failure

/-- The builder attaches an empty element. -/
theorem step_empty (hroot : b.opened = [] → b.root = none)
    (htext : s.text = before ++ (Event.empty content).source ++ after) :
    ((entriesOf? content).isSome = true ∧
      ∃ tag, b.step s (width before) (.empty content) = .ok (b.attach tag) ∧
        tag.bare = Tag.ofContent b.scopes content none []) ∨
    (¬ (entriesOf? content).isSome = true ∧
      ∃ failure, b.step s (width before) (.empty content) = .error failure) := by
  rcases openTag_cases content (Source.shown_of_eq htext) hroot with
    ⟨hentries, tag, hopen, hbare⟩ | ⟨hentries, failure, hopen⟩
  · refine Or.inl ⟨hentries, { tag with head := { tag.head with selfClosing := true } }, ?_, ?_⟩
    · simp only [step, hopen, bind, Except.bind, pure, Except.pure]
    · rw [← hbare, Tag.bare_eq, Tag.bare_eq tag]
      rfl
  · refine Or.inr ⟨hentries, failure, ?_⟩
    simp only [step, hopen, bind, Except.bind]

theorem step_opening (hroot : b.opened = [] → b.root = none)
    (htext : s.text = before ++ (Event.opening content).source ++ after) :
    ((entriesOf? content).isSome = true ∧
      ∃ tag, b.step s (width before) (.opening content) = .ok { b with opened := tag :: b.opened } ∧
        tag.bare = Tag.ofContent b.scopes content none []) ∨
    (¬ (entriesOf? content).isSome = true ∧
      ∃ failure, b.step s (width before) (.opening content) = .error failure) := by
  rcases openTag_cases content (Source.shown_of_eq htext) hroot with
    ⟨hentries, tag, hopen, hbare⟩ | ⟨hentries, failure, hopen⟩
  · refine Or.inl ⟨hentries, tag, ?_, hbare⟩
    simp only [step, hopen, bind, Except.bind, pure, Except.pure]
  · refine Or.inr ⟨hentries, failure, ?_⟩
    simp only [step, hopen, bind, Except.bind]

theorem bare_closeTag (endTagStart stop : Nat) (t : Tag) :
    (closeTag endTagStart stop t).bare = t.bare := by
  rw [Tag.bare_eq, Tag.bare_eq t]
  rfl

/-- An end tag closes the innermost open tag if it has its name. -/
theorem step_closing (s : Source) (offset : Nat) (content : Text) (hopened : b.opened = p :: others) :
    (p.name = Event.endName content ∧
      ∃ tag, b.step s offset (.closing content) = .ok ({ b with opened := others }.attach tag) ∧
        tag.bare = p.bare) ∨
    (¬ p.name = Event.endName content ∧
      ∃ failure, b.step s offset (.closing content) = .error failure) := by
  simp only [step, stepClosing, hopened]
  by_cases hname : p.name = Event.endName content
  · exact Or.inl ⟨hname, _, by rw [if_pos hname], bare_closeTag _ _ p⟩
  · exact Or.inr ⟨hname, _, by rw [if_neg hname]⟩

/-- A tag that was opened and took in everything inside it. -/
theorem ofContent_absorb (hbare : p.bare = Tag.ofContent b.scopes content none []) (inside : Markup) :
    p.bare.absorb (scopes { b with opened := p :: b.opened }) inside =
      Tag.ofContent b.scopes content inside.leaf?
        (inside.tags (declarationsOf content :: b.scopes)) := by
  have hscopes : scopes { b with opened := p :: b.opened } = declarationsOf content :: b.scopes := by
    rw [scopes, List.map_cons, ← TagHead.declarations_bare, ← Tag.bare_head, hbare]
    rfl
  rw [hbare, hscopes]
  rfl

/-- The markup `w` adds its tags and its leaf to the open tag in which it is
read, if it is readable, and makes the builder fail otherwise. -/
def ReadsInside (s : Source) (w : Markup) : Prop :=
  ∀ ⦃b : Builder⦄ ⦃p : Tag⦄ ⦃others : List Tag⦄ ⦃before after : Text⦄, b.opened = p :: others →
    s.text = before ++ w.source ++ after → ∀ more : List Event,
    (w.Readable ∧ ∃ p', p'.bare = p.bare.absorb b.scopes w ∧
      b.run s (width before) (w.events ++ more) =
        run s { b with opened := p' :: others } (width (before ++ w.source)) more) ∨
    (¬ w.Readable ∧ (b.run s (width before) (w.events ++ more)).2 ≠ none)

/-- The element `w` is attached wherever there is room for it, if it is readable,
and makes the builder fail otherwise. -/
def ReadsElement (s : Source) (w : Markup) : Prop :=
  ∀ ⦃b : Builder⦄ ⦃before after : Text⦄, (b.opened = [] → b.root = none) →
    s.text = before ++ w.source ++ after → ∀ more : List Event,
    (w.Readable ∧ ∃ tag, w.tags b.scopes = [tag.bare] ∧
      b.run s (width before) (w.events ++ more) =
        (b.attach tag).run s (width (before ++ w.source)) more) ∨
    (¬ w.Readable ∧ (b.run s (width before) (w.events ++ more)).2 ≠ none)

theorem readsInside_nil (s : Source) : ReadsInside s .nil := by
  intro b p others before after hopened _ more
  refine Or.inl ⟨trivial, p, (Tag.absorb_nil _ _).symm, ?_⟩
  rw [Markup.source_nil, List.append_nil, ← hopened]
  rfl

theorem readsInside_inert (s : Source) (event : Event) (hkind : event.elementKind? = none) :
    ReadsInside s (.inert event hkind .nil) := by
  intro b p others before after hopened htext more
  rw [Markup.source_inert, Markup.source_nil, List.append_nil] at htext ⊢
  rcases step_inert event hkind hopened htext with ⟨hread, p', hstep, hp'⟩ | ⟨hread, _, hstep⟩
  · refine Or.inl ⟨⟨hread, trivial⟩, p', ?_, ?_⟩
    · rw [← Tag.absorb_inert, Tag.absorb_nil, Tag.childCount_bare, hp']
    · rw [width_append]
      exact run_of_step hstep more
  · exact Or.inr ⟨fun h => hread h.1, run_of_error hstep more⟩

/-- The second part is read in the place where the first part has left the
builder. -/
theorem ReadsInside.append {w w' : Markup} (hw : ReadsInside s w) (hw' : ReadsInside s w') :
    ReadsInside s (w.append w') := by
  intro b p others before after hopened htext more
  rw [Markup.source_append] at htext
  have htext₁ : s.text = before ++ w.source ++ (w'.source ++ after) := by rw [htext]; simp
  have htext₂ : s.text = before ++ w.source ++ w'.source ++ after := by rw [htext]; simp
  rw [Markup.events_append, List.append_assoc, Markup.readable_append]
  rcases hw hopened htext₁ (w'.events ++ more) with ⟨hread, p₁, hp₁, hrun⟩ | ⟨hread, hrun⟩
  · have hscopes : scopes { b with opened := p₁ :: others } = b.scopes :=
      scopes_of_bare hopened (by rw [hp₁, Tag.absorb])
    rw [hrun]
    rcases hw' (b := { b with opened := p₁ :: others }) rfl htext₂ more with
      ⟨hread', p₂, hp₂, hrun'⟩ | ⟨hread', hrun'⟩
    · refine Or.inl ⟨⟨hread, hread'⟩, p₂, ?_, ?_⟩
      · rw [hp₂, hscopes, hp₁, Tag.absorb_append]
      · rw [hrun', Markup.source_append, List.append_assoc]
    · exact Or.inr ⟨fun h => hread' h.2, hrun'⟩
  · exact Or.inr ⟨fun h => hread h.1, hrun⟩

theorem readsElement_empty (s : Source) (content : Text) :
    ReadsElement s (.empty content .nil) := by
  intro b before after hroot htext more
  rw [Markup.source_empty, Markup.source_nil, List.append_nil] at htext ⊢
  rcases step_empty hroot htext with ⟨hread, tag, hstep, htag⟩ | ⟨hread, _, hstep⟩
  · refine Or.inl ⟨⟨hread, trivial⟩, tag, by rw [htag]; rfl, ?_⟩
    rw [width_append]
    exact run_of_step hstep more
  · exact Or.inr ⟨fun h => hread h.1, run_of_error hstep more⟩

/-- The start tag of an element opens a tag, which takes in what stands inside the
element and is closed by an end tag with its name. -/
theorem ReadsInside.element {inside : Markup} (hinside : ReadsInside s inside)
    (content close : Text) : ReadsElement s (.node content inside close .nil) := by
  intro b before after hroot htext more
  rw [Markup.source_node, Markup.source_nil, List.append_nil] at htext ⊢
  have htext₁ : s.text = before ++ (Event.opening content).source ++
      (inside.source ++ (Event.closing close).source ++ after) := by
    rw [htext]
    simp
  have htext₂ : s.text = before ++ (Event.opening content).source ++ inside.source ++
      ((Event.closing close).source ++ after) := by
    rw [htext]
    simp
  rw [Markup.events, Markup.events, List.cons_append, List.append_assoc, List.singleton_append]
  rcases step_opening hroot htext₁ with ⟨hread, t, hstep, ht⟩ | ⟨hread, _, hstep⟩
  · rw [run_of_step hstep, ← width_append]
    rcases hinside (b := { b with opened := t :: b.opened }) rfl htext₂ (.closing close :: more) with
      ⟨hinner, t', ht', hrun⟩ | ⟨hinner, hrun⟩
    · rw [ofContent_absorb ht inside] at ht'
      have hname : t'.name = WrittenAttribute.elementName content := by
        rw [← Tag.bare_name, ht']
        rfl
      rw [hrun]
      rcases step_closing s (width (before ++ (Event.opening content).source ++ inside.source))
          close (b := { b with opened := t' :: b.opened }) rfl with
        ⟨hclose, tag, hstep', htag⟩ | ⟨hclose, _, hstep'⟩
      · refine Or.inl ⟨⟨hread, hinner, hname ▸ hclose, trivial⟩, tag, ?_, ?_⟩
        · rw [htag, ht']
          rfl
        · rw [run_of_step hstep', ← width_append]
          simp only [List.append_assoc]
      · exact Or.inr ⟨fun h => hclose (hname ▸ h.2.2.1), run_of_error hstep' more⟩
    · exact Or.inr ⟨fun h => hinner h.2.1, hrun⟩
  · exact Or.inr ⟨fun h => hread h.1, run_of_error hstep _⟩

/-- Inside an open tag an element becomes a child of it. -/
theorem ReadsElement.inside {w : Markup} (hw : ReadsElement s w) (hleaf : w.leaf? = none) :
    ReadsInside s w := by
  intro b p others before after hopened htext more
  have hroot : b.opened = [] → b.root = none := by
    rw [hopened]
    rintro ⟨⟩
  rcases hw hroot htext more with ⟨hread, tag, htag, hrun⟩ | ⟨hread, hrun⟩
  · refine Or.inl ⟨hread, p.push tag, ?_, ?_⟩
    · have htags : w.tags b.scopes = tag.bare :: Markup.nil.tags b.scopes := htag
      rw [Tag.bare_push, ← Tag.absorb_push b.scopes htags hleaf, Tag.absorb_nil]
    · rw [hrun, attach, hopened]
  · exact Or.inr ⟨hread, hrun⟩

/-- **What is read inside an open tag.** Readable markup adds its tags and its
leaf, and any other markup makes the builder fail. -/
theorem run_inside (s : Source) (w : Markup) : ReadsInside s w := by
  induction w with
  | nil => exact readsInside_nil s
  | inert event hkind rest ih => exact (readsInside_inert s event hkind).append ih
  | empty content rest ih => exact ((readsElement_empty s content).inside rfl).append ih
  | node content inside close rest ihinside ih =>
    exact ((ihinside.element content close).inside rfl).append ih

/-! ## Outside all tags -/

/-- Outside all tags nothing may stand between elements but blanks and what
leaves no trace. -/
theorem step_outer (event : Event) (hkind : event.elementKind? = none) (hopened : b.opened = [])
    (htext : s.text = before ++ event.source ++ after) :
    ((∀ raw, event = .text raw → Blanks raw) ∧ event.Readable ∧
        b.step s (width before) event = .ok b) ∨
      (¬ (∀ raw, event = .text raw → Blanks raw) ∧
        ∃ failure, b.step s (width before) event = .error failure) := by
  have hshown := Source.shown_of_eq htext
  cases event with
  | opening content => cases hkind
  | empty content => cases hkind
  | closing content => cases hkind
  | aside raw => exact Or.inl ⟨by rintro _ ⟨⟩, trivial, rfl⟩
  | cdata content =>
    refine Or.inl ⟨by rintro _ ⟨⟩, trivial, ?_⟩
    simp only [step, attachLeaf, hopened]
  | text raw =>
    rw [Event.source] at hshown
    simp only [step, stepText, hshown, bind, Except.bind, pure, Except.pure, hopened]
    by_cases hblank : trim raw = []
    · have hblanks := trim_eq_nil_iff.mp hblank
      refine Or.inl ⟨?_, ⟨raw, hblanks.unescape_eq⟩, by rw [if_pos hblank]⟩
      rintro _ ⟨⟩
      exact hblanks
    · refine Or.inr ⟨fun h => hblank (trim_eq_nil_iff.mpr (h raw rfl)), ?_⟩
      rw [if_neg hblank]
      cases unescape raw with
      | error fault => exact ⟨_, rfl⟩
      | ok content => exact ⟨_, rfl⟩

/-- After the root nothing but blanks and what leaves no trace may follow. -/
theorem run_outer (w : Markup) {r : Tag} (htext : s.text = before ++ w.source ++ after) :
    (w.Outer ∧ w.Readable ∧ run s ⟨[], some r⟩ (width before) w.events = (⟨[], some r⟩, none)) ∨
      (¬ w.Outer ∧ (run s ⟨[], some r⟩ (width before) w.events).2 ≠ none) := by
  induction w generalizing before after with
  | nil => exact Or.inl ⟨trivial, trivial, rfl⟩
  | inert event hkind rest ih =>
    have htext₁ : s.text = before ++ event.source ++ rest.source ++ after := by
      rw [htext, Markup.source_inert]
      simp
    have htext₂ : s.text = before ++ event.source ++ (rest.source ++ after) := by
      rw [htext₁, List.append_assoc]
    rw [Markup.events]
    rcases step_outer (b := ⟨[], some r⟩) event hkind rfl htext₂ with
      ⟨hblank, hread, hstep⟩ | ⟨hblank, _, hstep⟩
    · rw [run_of_step hstep, ← width_append]
      rcases ih htext₁ with ⟨houter, hrest, hrun⟩ | ⟨houter, hrun⟩
      · exact Or.inl ⟨⟨hblank, houter⟩, ⟨hread, hrest⟩, hrun⟩
      · exact Or.inr ⟨fun h => houter h.2, hrun⟩
    · exact Or.inr ⟨fun h => hblank h.1, run_of_error hstep _⟩
  | empty content rest ih => exact Or.inr ⟨id, run_of_error (by rw [step]; rfl) _⟩
  | node content inside close rest ihinside ih =>
    exact Or.inr ⟨id, run_of_error (by rw [step]; rfl) _⟩

theorem run_ne_of_failure {events : List Event} (h : (run s b offset events).2 ≠ none)
    (b' : Builder) : run s b offset events ≠ (b', none) := by
  intro heq
  rw [heq] at h
  exact h rfl

/-- Outside all tags an element becomes the root, and nothing but blanks may
follow it. -/
theorem ReadsElement.run_start {w rest : Markup} (hw : ReadsElement s w)
    (htext : s.text = before ++ (w.append rest).source ++ after) :
    (rest.Outer ∧ (w.append rest).Readable ∧
        ∃ r, run s start (width before) (w.append rest).events = (⟨[], some r⟩, none) ∧
          (w.append rest).tags [] = [r.bare]) ∨
      (¬ (rest.Outer ∧ (w.append rest).Readable) ∧
        ∀ r, run s start (width before) (w.append rest).events ≠ (⟨[], some r⟩, none)) := by
  rw [Markup.source_append] at htext
  have htext₁ : s.text = before ++ w.source ++ (rest.source ++ after) := by rw [htext]; simp
  have htext₂ : s.text = before ++ w.source ++ rest.source ++ after := by rw [htext]; simp
  rw [Markup.events_append, Markup.readable_append]
  rcases hw (b := start) (fun _ => rfl) htext₁ rest.events with
    ⟨hread, tag, htag, hrun⟩ | ⟨hread, hrun⟩
  · rw [hrun]
    rcases run_outer rest (r := tag) htext₂ with ⟨houter, hrest, hrun'⟩ | ⟨houter, hrun'⟩
    · refine Or.inl ⟨houter, ⟨hread, hrest⟩, tag, hrun', ?_⟩
      rw [Markup.tags_append, Markup.tags_of_outer houter, List.append_nil]
      exact htag
    · exact Or.inr ⟨fun h => houter h.1, fun r => run_ne_of_failure hrun' _⟩
  · exact Or.inr ⟨fun h => hread h.2.1, fun r => run_ne_of_failure hrun _⟩

/-- **What is read outside all tags.** Markup with a single element becomes the
root, if it is readable. -/
theorem run_start (w : Markup) (htext : s.text = before ++ w.source ++ after) :
    (w.Single ∧ w.Readable ∧ ∃ r, run s start (width before) w.events = (⟨[], some r⟩, none) ∧
        w.tags [] = [r.bare]) ∨
      (¬ (w.Single ∧ w.Readable) ∧
        ∀ r, run s start (width before) w.events ≠ (⟨[], some r⟩, none)) := by
  induction w generalizing before after with
  | nil =>
    refine Or.inr ⟨fun h => h.1, ?_⟩
    rintro r ⟨⟩
  | inert event hkind rest ih =>
    have htext₁ : s.text = before ++ event.source ++ rest.source ++ after := by
      rw [htext, Markup.source_inert]
      simp
    have htext₂ : s.text = before ++ event.source ++ (rest.source ++ after) := by
      rw [htext₁, List.append_assoc]
    rw [Markup.events]
    rcases step_outer (b := start) event hkind rfl htext₂ with
      ⟨hblank, hread, hstep⟩ | ⟨hblank, _, hstep⟩
    · rw [run_of_step hstep, ← width_append]
      rcases ih htext₁ with ⟨hsingle, hrest, r, hrun, htags⟩ | ⟨hsingle, hrun⟩
      · exact Or.inl ⟨⟨hblank, hsingle⟩, ⟨hread, hrest⟩, r, hrun, htags⟩
      · exact Or.inr ⟨fun h => hsingle ⟨h.1.2, h.2.2⟩, hrun⟩
    · exact Or.inr ⟨fun h => hblank h.1.1, fun r => run_ne_of_failure (run_of_error hstep _) _⟩
  | empty content rest ih =>
    exact (readsElement_empty s content).run_start htext
  | node content inside close rest ihinside ih =>
    exact ((run_inside s inside).element content close).run_start htext

end Builder

/-! ## Documents -/

variable {t : Text} {root : Tag}

/-- **A document is the text of proper markup** with a single element, and its
tree is the tag of that element. -/
theorem exists_markup_of_parseStrict (hmark : t.head? ≠ some Source.mark)
    (h : parseStrict t = .ok root) :
    ∃ w : Markup, w.source = t ∧ w.Lexed ∧ w.Readable ∧ w.Single ∧ w.tags [] = [root.bare] := by
  obtain ⟨events, hlex, hrun⟩ := exists_run_of_parseStrict hmark h
  obtain ⟨-, hdepth⟩ := Builder.run_marks_eq Builder.regular_start hrun
  obtain ⟨w, rfl⟩ : ∃ w : Markup, events = w.events := by
    rcases Markup.exists_markup_of_depthAfter events 0 hdepth with ⟨-, hw⟩ | ⟨outer, hzero, -⟩
    · exact hw
    · cases hzero
  have hlex' : Event.lexFrom 0 t = (w.events ++ [], none) := by
    rw [List.append_nil]
    exact hlex
  obtain ⟨hlexed, rest, rfl, hrest⟩ := Markup.lexed_of_lexFrom w hlex'
  obtain rfl := Event.lexFrom_eq_nil hrest
  rw [List.append_nil] at hrun
  have htext : (Source.ofText w.source).text = [] ++ w.source ++ [] := (List.append_nil _).symm
  rcases Builder.run_start w htext with ⟨hsingle, hread, r', hrun', htags⟩ | ⟨-, hne⟩
  · cases hrun.symm.trans hrun'
    exact ⟨w, (List.append_nil _).symm, hlexed, hread, hsingle, htags⟩
  · exact absurd hrun (hne root)

/-- **The text of proper markup with a single element is a document.** -/
theorem exists_parseStrict_of_markup {w : Markup} (hmark : w.source.head? ≠ some Source.mark)
    (hlexed : w.Lexed) (hread : w.Readable) (hsingle : w.Single) :
    ∃ root, parseStrict w.source = .ok root ∧ w.tags [] = [root.bare] := by
  have htext : (Source.ofText w.source).text = [] ++ w.source ++ [] := (List.append_nil _).symm
  rcases Builder.run_start w htext with ⟨-, -, r, hrun, htags⟩ | ⟨hnot, -⟩
  · exact ⟨r, parseStrict_eq_ok_iff.mpr ((parse_eq_ok_iff_run rfl hmark).mpr
      ⟨w.events, Markup.lex_source hlexed, hrun⟩), htags⟩
  · exact absurd ⟨hsingle, hread⟩ hnot

end SkinMarkup
