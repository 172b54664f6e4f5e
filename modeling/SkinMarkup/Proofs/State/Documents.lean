import SkinMarkup.Proofs.Markup.Reading
import SkinMarkup.Proofs.Markup.Revised
import SkinMarkup.Proofs.Markup.Spots
import SkinMarkup.Proofs.State.CopiedTag

/-!
# Documents whose states can be edited

State edits look up attributes by their spelling. `Editable` says of a document
when this finds what a reader finds: names are proper, blanks stand before every
attribute, no value mentions a list of states, and the lists hold nothing that
would have to be read. The markup of such a document has tidy start tags:
`Editable.exists_markup`.
-/

namespace SkinMarkup

/-- The tokens of a text that start an element. -/
def startTokens (t : Text) : List Token :=
  (scan t).elements.filter (·.isStart)

/-- The attributes of a tag as they are written. -/
def Token.pieces (token : Token) : List WrittenPiece :=
  (TagText.ofText token.text).pieces

/-- A name of XML, in which a colon is a letter. -/
def isXmlName (name : Text) : Bool :=
  name.head?.any isNameStart && name.all isNameChar

/-- A document whose start tags are divided into the attributes that a reader finds:
names are proper, and blanks stand before every attribute. -/
structure TidyText (t : Text) (root : Tag) : Prop where
  unmarked : t.head? ≠ some Source.mark
  backslash : '\\' ∉ t
  names : ∀ x ∈ root.preorder,
    isXmlName x.name = true ∧ ∀ a ∈ x.head.attributes, isXmlName a.name = true
  spaced : ∀ token ∈ startTokens t, ∀ p ∈ token.pieces, p.lead ≠ []

instance (t : Text) (root : Tag) : Decidable (TidyText t root) :=
  decidable_of_iff
    (t.head? ≠ some Source.mark ∧ '\\' ∉ t ∧
      (∀ x ∈ root.preorder,
        isXmlName x.name = true ∧ ∀ a ∈ x.head.attributes, isXmlName a.name = true) ∧
      ∀ token ∈ startTokens t, ∀ p ∈ token.pieces, p.lead ≠ [])
    ⟨fun ⟨h₁, h₂, h₃, h₄⟩ => ⟨h₁, h₂, h₃, h₄⟩, fun ⟨h₁, h₂, h₃, h₄⟩ => ⟨h₁, h₂, h₃, h₄⟩⟩

/-- A value without references, equals signs and quotes. -/
def isListText (value : Text) : Bool :=
  value.all fun c => c != '&' && c != '=' && c != '"' && c != '\''

/-- A document in which lists of states are found where they are. -/
structure Editable (t : Text) (root : Tag) : Prop where
  unmarked : t.head? ≠ some Source.mark
  backslash : '\\' ∉ t
  names : ∀ x ∈ root.preorder,
    isXmlName x.name = true ∧ ∀ a ∈ x.head.attributes, isXmlName a.name = true
  spaced : ∀ token ∈ startTokens t, ∀ p ∈ token.pieces, p.lead ≠ []
  silent : ∀ token ∈ startTokens t, ∀ p ∈ token.pieces,
    ∀ word ∈ [Word.includeIn, Word.excludeFrom, Word.states], containsWord word p.value = false
  lists : ∀ token ∈ startTokens t, ∀ p ∈ token.pieces,
    Word.isStateList p.name = true → isListText p.value = true
  /-- The first start tag is that of the root. -/
  declared : ∀ token ∈ (startTokens t).head?, ∀ p ∈ token.pieces,
    p.name = Word.states → isListText p.value = true

instance (t : Text) (root : Tag) : Decidable (Editable t root) :=
  decidable_of_iff
    (t.head? ≠ some Source.mark ∧ '\\' ∉ t ∧
      (∀ x ∈ root.preorder,
        isXmlName x.name = true ∧ ∀ a ∈ x.head.attributes, isXmlName a.name = true) ∧
      (∀ token ∈ startTokens t, ∀ p ∈ token.pieces, p.lead ≠ []) ∧
      (∀ token ∈ startTokens t, ∀ p ∈ token.pieces,
        ∀ word ∈ [Word.includeIn, Word.excludeFrom, Word.states],
          containsWord word p.value = false) ∧
      (∀ token ∈ startTokens t, ∀ p ∈ token.pieces,
        Word.isStateList p.name = true → isListText p.value = true) ∧
      ∀ token ∈ (startTokens t).head?, ∀ p ∈ token.pieces,
        p.name = Word.states → isListText p.value = true)
    ⟨fun ⟨h₁, h₂, h₃, h₄, h₅, h₆, h₇⟩ => ⟨h₁, h₂, h₃, h₄, h₅, h₆, h₇⟩,
      fun ⟨h₁, h₂, h₃, h₄, h₅, h₆, h₇⟩ => ⟨h₁, h₂, h₃, h₄, h₅, h₆, h₇⟩⟩

theorem Editable.tidyText {t : Text} {root : Tag} (h : Editable t root) : TidyText t root :=
  ⟨h.unmarked, h.backslash, h.names, h.spaced⟩

theorem isListText_iff {value : Text} : isListText value = true ↔ '&' ∉ value ∧ ListValue value := by
  rw [isListText, List.all_eq_true]
  constructor
  · intro h
    have hno : ∀ c, ((c != '&' && c != '=' && c != '"' && c != '\'') = true) = False → c ∉ value :=
      fun c hc hmem => hc ▸ h c hmem
    exact ⟨hno _ (by simp), hno _ (by simp), hno _ (by simp), hno _ (by simp)⟩
  · rintro ⟨h₁, h₂, h₃, h₄⟩ c hc
    have hne : ∀ d, d ∉ value → (c != d) = true := fun d hd => by
      rw [bne_iff_ne]
      rintro rfl
      exact hd hc
    simp [hne _ h₁, hne _ h₂, hne _ h₃, hne _ h₄]

/-! ## Start tags among the tokens -/

namespace Markup

variable {gap gap' : Text} {segments segments' : List Segment} {w : Markup} {selfClosing : Bool}
  {content : Text}

/-- Every start tag of markup is a token. -/
theorem Spans.exists_token (h : w.Spans gap segments gap' segments')
    (hmem : Event.start selfClosing content ∈ w.events) :
    ∃ token ∈ segments.map (·.token),
      IsToken token (.ofStart selfClosing) (.start selfClosing content) := by
  induction w generalizing gap segments gap' segments' with
  | nil => cases hmem
  | inert event hinert rest ih =>
    have hrest : Event.start selfClosing content ∈ rest.events := by
      rcases List.mem_cons.mp hmem with rfl | hmem
      · rw [Event.elementKind?_start] at hinert
        cases hinert
      · exact hmem
    rw [Spans] at h
    split at h
    · exact ih h hrest
    · obtain ⟨token, others, rfl, -, -, h⟩ := h
      obtain ⟨found, hfound, htoken⟩ := ih h hrest
      exact ⟨found, List.mem_cons_of_mem _ hfound, htoken⟩
  | empty other rest ih =>
    obtain ⟨token, others, rfl, htoken, h⟩ := h
    rcases List.mem_cons.mp hmem with heq | hmem
    · cases selfClosing with
      | false => cases heq
      | true =>
        cases heq
        exact ⟨token, List.mem_cons_self, htoken⟩
    · obtain ⟨found, hfound, htoken⟩ := ih h hmem
      exact ⟨found, List.mem_cons_of_mem _ hfound, htoken⟩
  | node other inside close rest ihinside ih =>
    obtain ⟨token, inner, gap₁, token', others, rfl, htoken, hinside, htoken', h⟩ := h
    simp only [events, List.mem_cons, List.mem_append] at hmem
    obtain ⟨own, rfl, -, -⟩ := hinside.split
    rcases hmem with heq | hmem | heq | hmem
    · cases selfClosing with
      | true => cases heq
      | false =>
        cases heq
        exact ⟨token, List.mem_cons_self, htoken⟩
    · obtain ⟨found, hfound, htoken⟩ := ihinside hinside hmem
      exact ⟨found, List.mem_cons_of_mem _ hfound, htoken⟩
    · cases selfClosing <;> cases heq
    · obtain ⟨found, hfound, htoken⟩ := ih h hmem
      exact ⟨found, by simp [hfound], htoken⟩

/-- A token that is a start tag of markup, or the end tag that goes with it. -/
structure Belongs (w : Markup) (token : Token) (selfClosing : Bool) (content : Text) : Prop where
  start : Event.start selfClosing content ∈ w.events
  token : IsToken token (.ofStart selfClosing) (.start selfClosing content) ∨
    ∃ close, IsToken token .closing (.closing close) ∧
      WrittenAttribute.elementName content = Event.endName close

theorem Belongs.mono {token : Token} {w' : Markup} (h : w.Belongs token selfClosing content)
    (hsub : w.events ⊆ w'.events) : w'.Belongs token selfClosing content :=
  ⟨hsub h.start, h.token⟩

/-- **Every element token of markup belongs to a start tag.** -/
theorem Spans.exists_belongs (h : w.Spans gap segments gap' segments') (hread : w.Readable)
    {token : Token} (hmem : token ∈ segments.map (·.token)) (helement : token.isElement = true) :
    token ∈ segments'.map (·.token) ∨
      ∃ selfClosing content, w.Belongs token selfClosing content := by
  induction w generalizing gap segments gap' segments' with
  | nil =>
    obtain ⟨-, rfl⟩ := h
    exact Or.inl hmem
  | inert event hinert rest ih =>
    have hsub := List.subset_cons_self event rest.events
    rw [Spans] at h
    split at h
    · refine (ih h hread.2 hmem).imp_right ?_
      rintro ⟨selfClosing, content, hbelongs⟩
      exact ⟨selfClosing, content, hbelongs.mono hsub⟩
    · obtain ⟨inertToken, others, rfl, hinertToken, -, h⟩ := h
      rcases List.mem_cons.mp hmem with rfl | hmem
      · cases hinertToken.symm.trans helement
      · refine (ih h hread.2 hmem).imp_right ?_
        rintro ⟨selfClosing, content, hbelongs⟩
        exact ⟨selfClosing, content, hbelongs.mono hsub⟩
  | empty other rest ih =>
    obtain ⟨first, others, rfl, hfirst, h⟩ := h
    rcases List.mem_cons.mp hmem with rfl | hmem
    · exact Or.inr ⟨true, other, List.mem_cons_self, Or.inl hfirst⟩
    · refine (ih h hread.2 hmem).imp_right ?_
      rintro ⟨selfClosing, content, hbelongs⟩
      exact ⟨selfClosing, content, hbelongs.mono events_behind_empty⟩
  | node other inside close rest ihinside ih =>
    obtain ⟨-, hreadInside, hclose, hreadRest⟩ := hread
    obtain ⟨first, inner, gap₁, last, others, rfl, hfirst, hinside, hlast, h⟩ := h
    have hstart : Event.start false other ∈ (node other inside close rest).events :=
      List.mem_cons_self
    rcases List.mem_cons.mp hmem with rfl | hmem
    · exact Or.inr ⟨false, other, hstart, Or.inl hfirst⟩
    rcases ihinside hinside hreadInside hmem with hmem | ⟨selfClosing, content, hbelongs⟩
    · rcases List.mem_cons.mp hmem with rfl | hmem
      · exact Or.inr ⟨false, other, hstart, Or.inr ⟨close, hlast, hclose⟩⟩
      · refine (ih h hreadRest hmem).imp_right ?_
        rintro ⟨selfClosing, content, hbelongs⟩
        exact ⟨selfClosing, content, hbelongs.mono events_behind_node⟩
    · exact Or.inr ⟨selfClosing, content, hbelongs.mono events_inside_node⟩

/-- The first start tag of markup is the first token that starts an element. -/
theorem Spans.exists_head (h : w.Spans gap segments gap' segments')
    (hfirst : w.first? = some (selfClosing, content)) :
    ∃ token, ((segments.map (·.token)).filter (·.isStart)).head? = some token ∧
      IsToken token (.ofStart selfClosing) (.start selfClosing content) := by
  induction w generalizing gap segments gap' segments' with
  | nil => cases hfirst
  | inert event hinert rest ih =>
    rw [Spans] at h
    split at h
    · exact ih h hfirst
    · obtain ⟨token, others, rfl, htoken, -, h⟩ := h
      obtain ⟨found, hfound, hfoundToken⟩ := ih h hfirst
      have hstart := Token.isStart_eq_false htoken
      exact ⟨found, by simp [hstart, hfound], hfoundToken⟩
  | empty other rest ih =>
    cases hfirst
    obtain ⟨token, others, rfl, htoken, -⟩ := h
    exact ⟨token, by simp [isStart_of_isToken true htoken], htoken⟩
  | node other inside close rest ihinside ih =>
    cases hfirst
    obtain ⟨token, inner, gap₁, token', others, rfl, htoken, -⟩ := h
    exact ⟨token, by simp [isStart_of_isToken false htoken], htoken⟩

theorem startTokens_eq (t : Text) :
    startTokens t = ((scan t).segments.map (·.token)).filter (·.isStart) := by
  rw [startTokens, Scan.elements, List.filter_filter, Scan.tokens]
  refine List.filter_congr fun token _ => ?_
  rw [Token.isElement, TokenKind.isElement, Token.isStart]
  cases token.kind.isStart <;> rfl

/-- Markup that is a document. -/
structure Document (w : Markup) : Prop where
  lexed : w.Lexed
  scannable : w.Scannable
  readable : w.Readable
  single : w.Single

theorem Document.exists_token (h : w.Document) (hmem : Event.start selfClosing content ∈ w.events) :
    ∃ token ∈ startTokens w.source,
      IsToken token (.ofStart selfClosing) (.start selfClosing content) := by
  obtain ⟨hspans, -⟩ := spans_scan h.lexed h.scannable
  obtain ⟨token, hmem, htoken⟩ := hspans.exists_token hmem
  rw [startTokens_eq]
  exact ⟨token, List.mem_filter.mpr ⟨hmem, isStart_of_isToken selfClosing htoken⟩, htoken⟩

/-- **Every element token of a document belongs to a start tag.** -/
theorem Document.exists_belongs (h : w.Document) {token : Token}
    (hmem : token ∈ (scan w.source).tokens) (helement : token.isElement = true) :
    ∃ selfClosing content, w.Belongs token selfClosing content := by
  obtain ⟨hspans, -⟩ := spans_scan h.lexed h.scannable
  rw [Scan.tokens] at hmem
  exact (hspans.exists_belongs h.readable hmem helement).resolve_left List.not_mem_nil

theorem Document.exists_head (h : w.Document) (hfirst : w.first? = some (selfClosing, content)) :
    ∃ token, (startTokens w.source).head? = some token ∧
      IsToken token (.ofStart selfClosing) (.start selfClosing content) := by
  obtain ⟨hspans, -⟩ := spans_scan h.lexed h.scannable
  rw [startTokens_eq]
  exact hspans.exists_head hfirst

theorem mem_events_of_first (hfirst : w.first? = some (selfClosing, content)) :
    Event.start selfClosing content ∈ w.events := by
  induction w with
  | nil => cases hfirst
  | inert event hinert rest ih => exact List.mem_cons_of_mem event (ih hfirst)
  | empty other rest ih =>
    cases hfirst
    exact List.mem_cons_self
  | node other inside close rest ihinside ih =>
    cases hfirst
    exact List.mem_cons_self

/-- The events of lexed markup are whole. -/
theorem Lexed.whole_of_mem {event : Event} (h : w.Lexed) (hmem : event ∈ w.events) : event.Whole := by
  induction w with
  | nil => cases hmem
  | inert other hinert rest ih =>
    rcases List.mem_cons.mp hmem with rfl | hmem
    · exact h.1
    · exact ih h.2.2 hmem
  | empty other rest ih =>
    rcases List.mem_cons.mp hmem with rfl | hmem
    · exact h.1
    · exact ih h.2 hmem
  | node other inside close rest ihinside ih =>
    obtain ⟨hopening, hinside, hclosing, hrest⟩ := h
    simp only [events, List.mem_cons, List.mem_append] at hmem
    rcases hmem with rfl | hmem | rfl | hmem
    · exact hopening
    · exact ihinside hinside hmem
    · exact hclosing
    · exact ih hrest hmem

/-- The start tags of readable markup can be read. -/
theorem Readable.isSome_of_mem (h : w.Readable)
    (hmem : Event.start selfClosing content ∈ w.events) : (entriesOf? content).isSome = true := by
  induction w with
  | nil => cases hmem
  | inert event hinert rest ih =>
    refine ih h.2 ?_
    rcases List.mem_cons.mp hmem with rfl | hmem
    · rw [Event.elementKind?_start] at hinert
      cases hinert
    · exact hmem
  | empty other rest ih =>
    rcases List.mem_cons.mp hmem with heq | hmem
    · cases selfClosing with
      | false => cases heq
      | true =>
        cases heq
        exact h.1
    · exact ih h.2 hmem
  | node other inside close rest ihinside ih =>
    obtain ⟨hentries, hinside, -, hrest⟩ := h
    simp only [events, List.mem_cons, List.mem_append] at hmem
    rcases hmem with heq | hmem | heq | hmem
    · cases selfClosing with
      | true => cases heq
      | false =>
        cases heq
        exact hentries
    · exact ihinside hinside hmem
    · cases selfClosing <;> cases heq
    · exact ih hrest hmem

/-- Every start tag of markup has a tag. -/
theorem exists_tag_of_mem_events (hmem : Event.start selfClosing content ∈ w.events)
    (scopes : List (List Namespace)) :
    ∃ x ∈ Tag.preorderAll (w.tags scopes), x.element = elementOf content := by
  have hself : ∀ {x : Tag}, x ∈ x.preorder := fun {x} => by
    rw [Tag.preorder_eq]
    exact List.mem_cons_self
  induction w generalizing scopes with
  | nil => cases hmem
  | inert event hinert rest ih =>
    refine ih ?_ scopes
    rcases List.mem_cons.mp hmem with rfl | hmem
    · rw [Event.elementKind?_start] at hinert
      cases hinert
    · exact hmem
  | empty other rest ih =>
    rw [tags, Tag.preorderAll]
    rcases List.mem_cons.mp hmem with heq | hmem
    · cases selfClosing with
      | false => cases heq
      | true =>
        cases heq
        exact ⟨_, List.mem_append_left _ hself, element_ofContent _ _ _ _⟩
    · obtain ⟨x, hx, helement⟩ := ih hmem scopes
      exact ⟨x, List.mem_append_right _ hx, helement⟩
  | node other inside close rest ihinside ih =>
    rw [tags, Tag.preorderAll]
    simp only [events, List.mem_cons, List.mem_append] at hmem
    rcases hmem with heq | hmem | heq | hmem
    · cases selfClosing with
      | true => cases heq
      | false =>
        cases heq
        exact ⟨_, List.mem_append_left _ hself, element_ofContent _ _ _ _⟩
    · obtain ⟨x, hx, helement⟩ := ihinside hmem (declarationsOf other :: scopes)
      refine ⟨x, List.mem_append_left _ ?_, helement⟩
      rw [Tag.preorder_eq]
      exact List.mem_cons_of_mem _ hx
    · cases selfClosing <;> cases heq
    · obtain ⟨x, hx, helement⟩ := ih hmem scopes
      exact ⟨x, List.mem_append_right _ hx, helement⟩

/-- Every start tag of a document has a tag in its tree. -/
theorem exists_preorder {root : Tag} (htags : w.tags [] = [root.bare])
    (hmem : Event.start selfClosing content ∈ w.events) :
    ∃ x ∈ root.preorder, x.element = elementOf content := by
  obtain ⟨x, hx, helement⟩ := exists_tag_of_mem_events hmem []
  rw [htags, ← List.map_singleton, Tag.preorderAll_map_bare] at hx
  obtain ⟨y, hy, rfl⟩ := List.mem_map.mp hx
  rw [Tag.element_bare] at helement
  rw [Tag.preorderAll, Tag.preorderAll, List.append_nil] at hy
  exact ⟨y, hy, helement⟩

/-- Every tag of markup has a start tag. -/
theorem exists_start_of_mem_tags {scopes : List (List Namespace)} {x : Tag}
    (hx : x ∈ Tag.preorderAll (w.tags scopes)) :
    ∃ selfClosing content, Event.start selfClosing content ∈ w.events ∧
      x.element = elementOf content := by
  induction w generalizing scopes with
  | nil => cases hx
  | inert event hinert rest ih =>
    obtain ⟨selfClosing, content, hmem, helement⟩ := ih hx
    exact ⟨selfClosing, content, List.mem_cons_of_mem _ hmem, helement⟩
  | empty other rest ih =>
    rw [tags, Tag.preorderAll, Tag.preorder_eq, List.cons_append, List.mem_cons] at hx
    rcases hx with rfl | hx
    · exact ⟨true, other, List.mem_cons_self, element_ofContent _ _ _ _⟩
    · obtain ⟨selfClosing, content, hmem, helement⟩ := ih hx
      exact ⟨selfClosing, content, List.mem_cons_of_mem _ hmem, helement⟩
  | node other inside close rest ihinside ih =>
    rw [tags, Tag.preorderAll, Tag.preorder_eq, List.cons_append, List.mem_cons,
      List.mem_append] at hx
    rcases hx with rfl | hx | hx
    · exact ⟨false, other, List.mem_cons_self, element_ofContent _ _ _ _⟩
    · obtain ⟨selfClosing, content, hmem, helement⟩ := ihinside hx
      exact ⟨selfClosing, content, events_inside_node hmem, helement⟩
    · obtain ⟨selfClosing, content, hmem, helement⟩ := ih hx
      exact ⟨selfClosing, content, events_behind_node hmem, helement⟩

theorem exists_start_of_mem_preorder {root x : Tag} (htags : w.tags [] = [root.bare])
    (hx : x ∈ root.preorder) :
    ∃ selfClosing content, Event.start selfClosing content ∈ w.events ∧
      x.element = elementOf content := by
  have hbare : x.bare ∈ Tag.preorderAll (w.tags []) := by
    rw [htags, ← List.map_singleton, Tag.preorderAll_map_bare]
    refine List.mem_map_of_mem ?_
    rwa [Tag.preorderAll, Tag.preorderAll, List.append_nil]
  obtain ⟨selfClosing, content, hmem, helement⟩ := exists_start_of_mem_tags hbare
  exact ⟨selfClosing, content, hmem, x.element_bare.symm.trans helement⟩

/-- Markup with one root starts with a blank or with a `<`. -/
theorem Single.head?_source (h : w.Single) (hlexed : w.Lexed) :
    w.source.head? ≠ some Source.mark := by
  intro hmark
  cases hstart : w.startsText with
  | false =>
    have hnil : ∀ c ∈ ([] : Text).head?, c = '<' := by rintro c ⟨⟩
    cases head?_of_not_startsText hlexed hstart hnil Source.mark (by simpa using hmark)
  | true =>
    cases w with
    | inert event hinert rest =>
      cases event with
      | text raw =>
        obtain ⟨c, cs, rfl⟩ := List.exists_cons_of_ne_nil hlexed.1.1
        cases hmark
        cases h.1 _ rfl Source.mark List.mem_cons_self
      | _ => cases hstart
    | _ => cases hstart

/-- The first start tag of markup is that of the root. -/
theorem element_of_first {root : Tag} (hfirst : w.first? = some (selfClosing, content))
    (htags : w.tags [] = [root.bare]) : root.element = elementOf content := by
  induction w with
  | nil => cases hfirst
  | inert event hinert rest ih => exact ih hfirst htags
  | empty other rest ih =>
    cases hfirst
    rw [← Tag.element_bare, ← (List.cons.inj htags).1, element_ofContent]
  | node other inside close rest ihinside ih =>
    cases hfirst
    rw [← Tag.element_bare, ← (List.cons.inj htags).1, element_ofContent]

/-- **A document can be parsed**, and its tree is that of its markup. -/
theorem Document.exists_parseStrict (h : w.Document) :
    ∃ root, parseStrict w.source = .ok root ∧ w.tags [] = [root.bare] :=
  exists_parseStrict_of_markup (h.single.head?_source h.lexed) h.lexed h.readable h.single

end Markup

/-! ## Start tags that can be edited -/

/-- A start tag of a document whose states can be edited. -/
structure StartTag.Ready (t : StartTag) : Prop where
  listed : t.Listed
  avoids : ∀ p ∈ t.pieces, Avoids Word.states p.value
  plain : ∀ p ∈ t.pieces, Word.isStateList p.name = true → '&' ∉ p.value
  starts : Event.Starts t.name
  backslash : '\\' ∉ t.content
  readable : (entriesOf? t.content).isSome = true

/-- Markup whose start tags can be edited. -/
def Markup.Ready (w : Markup) : Prop :=
  ∀ selfClosing content, Event.start selfClosing content ∈ w.events →
    ∃ st : StartTag, st.content = content ∧ st.Ready

namespace Markup

theorem elementOf_content {st : StartTag} (h : st.Tidy) {entries : List (Text × Text)}
    (hentries : entriesOf? st.content = some entries) : elementOf st.content = (st.name, entries) := by
  rw [elementOf, h.regular.elementName_content, entriesOf, hentries]
  rfl

/-- The value of an attribute is read from the value that is written. -/
theorem valueIn?_elementOf {st : StartTag} (h : st.Tidy)
    (hread : (entriesOf? st.content).isSome = true) (name : Text) :
    valueIn? name (elementOf st.content).2 =
      (st.value? name).bind fun value => (unescape value).toOption := by
  obtain ⟨entries, hentries⟩ := Option.isSome_iff_exists.mp hread
  rw [elementOf_content h hentries]
  rw [h.regular.entriesOf?_content] at hentries
  rw [StartTag.value?]
  dsimp only
  generalize st.pieces = pieces at hentries
  induction pieces generalizing entries with
  | nil =>
    cases hentries
    rfl
  | cons p pieces ih =>
    obtain ⟨⟨other, value⟩, others, hfirst, hothers, rfl⟩ := mapM_readEntry_cons.mp hentries
    obtain ⟨hname, hvalue⟩ := readEntry_eq_some.mp hfirst
    change other = p.name at hname
    change unescape p.value = .ok value at hvalue
    subst hname
    by_cases heq : p.name = name
    · simp [valueIn?, heq, hvalue, Except.toOption]
    · simpa [valueIn?, heq] using ih others hothers

end Markup

/-- Blanks do not matter where a name is looked for. -/
theorem isInfix_of_flatten {word value : Text} (hword : NameChars word)
    (h : word <:+: ValueSlot.flatten value) : word <:+: value := by
  obtain ⟨before, after, heq⟩ := h
  rw [flatten_eq_map] at heq
  obtain ⟨front, back, rfl, hfront, -⟩ := List.map_eq_append_iff.mp heq.symm
  obtain ⟨first, middle, rfl, -, hmiddle⟩ := List.map_eq_append_iff.mp hfront
  refine ⟨first, back, ?_⟩
  have hsame : middle.map asSpace = middle := by
    conv => rhs; rw [← List.map_id middle]
    refine List.map_congr_left fun c hc => gentle_asSpace.fixed c ?_
    cases hlayout : isLayout c with
    | false => rfl
    | true =>
      have hblank := gentle_asSpace.blank c hlayout
      have hname := hword (asSpace c) (hmiddle ▸ List.mem_map_of_mem hc)
      cases hblank.symm.trans hname
  rw [← hmiddle, hsame]

theorem avoids_of_containsWord {word value : Text} (hword : NameChars word)
    (h : containsWord word value = false) : Avoids word value := by
  intro hwithin
  have hvalue : word <:+: value :=
    isInfix_of_flatten hword ((List.suffix_cons ' ' word).isInfix.trans hwithin)
  rw [containsWord_iff.mpr hvalue] at h
  cases h

theorem nameChars_of_isXmlName {name : Text} (h : isXmlName name = true) : NameChars name := by
  rw [isXmlName, Bool.and_eq_true] at h
  exact List.all_eq_true.mp h.2

theorem ne_nil_of_isXmlName {name : Text} (h : isXmlName name = true) : name ≠ [] := by
  rintro rfl
  cases h

theorem isSafeName_of_isXmlName {name : Text} (h : isXmlName name = true) :
    isSafeName name = true :=
  isSafeName_of_nameChars (ne_nil_of_isXmlName h) (nameChars_of_isXmlName h)

theorem starts_of_isXmlName {name : Text} (h : isXmlName name = true) : Event.Starts name := by
  intro c hc
  have hname := nameChars_of_isXmlName h c (List.mem_of_mem_head? hc)
  have hother : ∀ e : Char, isNameChar e = false → c ≠ e := fun e he => ne_of_isNameChar hname he
  exact ⟨hother _ (by decide), hother _ (by decide), hother _ (by decide)⟩

/-- There is one blank that names can have. -/
theorem eq_of_isBlank {c : Char} (hname : isNameChar c = true) (hblank : isBlank c = true) :
    c = '\u1680' := by
  simp [isBlank, blankRanges] at hblank
  simp [isNameChar, isNameStart, nameStartRanges, nameRanges] at hname
  have hnat : c.toNat = 0x1680 := by omega
  exact Char.ext (UInt32.toNat_inj.mp hnat)

/-- A name ends in a blank only if it ends in the one blank that names can have. -/
theorem StartTag.solid_of_getLast? {st : StartTag} (hname : NameChars st.name)
    (hlast : st.name.getLast? ≠ some '\u1680') : st.Solid := by
  intro c hc
  cases hblank : isBlank c with
  | false => rfl
  | true =>
    have heq := eq_of_isBlank (hname c (List.mem_of_getLast? hc)) hblank
    exact absurd (heq ▸ hc) hlast

theorem StartTag.Tidy.solid {st : StartTag} (h : st.Tidy) (hlast : st.name.getLast? ≠ some '\u1680') :
    st.Solid :=
  solid_of_getLast? h.name hlast

/-- The written attributes of a start tag are those of its token. -/
theorem StartTag.Regular.pieces_of_isToken {token : Token} {st : StartTag} {selfClosing : Bool}
    (h : st.Regular) (hname : NameChars st.name) (hnames : ∀ p ∈ st.pieces, NameChars p.name)
    (htoken : Markup.IsToken token (.ofStart selfClosing) (.start selfClosing st.content)) :
    token.pieces = st.pieces := by
  rw [Token.pieces, htoken.text, StartTag.source_start, h.ofText_text hname hnames]

namespace TidyText

variable {t : Text} {root : Tag} {w : Markup} {selfClosing : Bool} {content : Text}

/-- A tag of the root has proper names. -/
theorem isName_of_mem_events (h : TidyText t root) (htags : w.tags [] = [root.bare])
    (hmem : Event.start selfClosing content ∈ w.events) :
    isXmlName (elementOf content).1 = true ∧ ∀ e ∈ (elementOf content).2, isXmlName e.1 = true := by
  obtain ⟨x, hx, helement⟩ := Markup.exists_preorder htags hmem
  obtain ⟨hname, hattributes⟩ := h.names x hx
  rw [← helement]
  refine ⟨hname, fun e he => ?_⟩
  obtain ⟨a, ha, rfl⟩ := List.mem_map.mp he
  exact hattributes a ha

/-- **The start tags of a tidy document are tidy,** and their tokens are divided into
their attributes. -/
theorem exists_tidy (h : TidyText t root) (hw : w.Document) (hsource : w.source = t)
    (htags : w.tags [] = [root.bare]) (hmem : Event.start selfClosing content ∈ w.events) :
    ∃ st : StartTag, st.content = content ∧ st.Tidy ∧ isXmlName st.name = true ∧
      '\\' ∉ st.content ∧ ∃ token ∈ startTokens t, token.pieces = st.pieces := by
  obtain ⟨entries, hread⟩ := Option.isSome_iff_exists.mp (hw.readable.isSome_of_mem hmem)
  obtain ⟨hname, hnames⟩ := h.isName_of_mem_events htags hmem
  have hentriesOf : entriesOf content = entries := by rw [entriesOf, hread]; rfl
  rw [elementOf, hentriesOf] at hnames
  obtain ⟨st, hregular, rfl⟩ := exists_startTag hread (isSafeName_of_isXmlName hname)
    fun e he => isSafeName_of_isXmlName (hnames e he)
  have hstName : isXmlName st.name = true := by
    rw [← hregular.elementName_content]
    exact hname
  have hpieceNames : ∀ p ∈ st.pieces, NameChars p.name := by
    intro p hp
    have hfst : p.name ∈ entries.map Prod.fst := by
      rw [hregular.names_eq hread]
      exact List.mem_map_of_mem hp
    obtain ⟨e, he, heq⟩ := List.mem_map.mp hfst
    exact nameChars_of_isXmlName (heq ▸ hnames e he)
  obtain ⟨token, htokenMem, htoken⟩ := hw.exists_token hmem
  rw [hsource] at htokenMem
  have hpieces :=
    hregular.pieces_of_isToken (nameChars_of_isXmlName hstName) hpieceNames htoken
  refine ⟨st, rfl, ⟨hregular, nameChars_of_isXmlName hstName, hpieceNames,
    hpieces ▸ h.spaced token htokenMem⟩, hstName, ?_, token, htokenMem, hpieces⟩
  intro hback
  refine h.backslash (hsource ▸ ?_)
  rw [Markup.source, List.mem_flatMap]
  refine ⟨_, hmem, ?_⟩
  rw [StartTag.source_start, StartTag.text]
  exact List.mem_cons_of_mem _ (List.mem_append_left _ hback)

/-- **A tidy document is the text of markup** that can be scanned and read. -/
theorem exists_markup (h : TidyText t root) (hdoctype : NoDoctype t)
    (hparse : parseStrict t = .ok root) :
    ∃ w : Markup, w.source = t ∧ w.Document ∧ w.tags [] = [root.bare] := by
  obtain ⟨w, hsource, hlexed, hread, hsingle, htags⟩ :=
    exists_markup_of_parseStrict h.unmarked hparse
  refine ⟨w, hsource, ⟨hlexed, fun event hmem htext => ?_, hread, hsingle⟩, htags⟩
  have hpart : event.source <:+: t := by
    obtain ⟨l, r, hevents⟩ := List.append_of_mem hmem
    refine ⟨l.flatMap Event.source, r.flatMap Event.source, ?_⟩
    rw [← hsource, Markup.source, hevents]
    simp
  exact (hlexed.whole_of_mem hmem).scannable htext (hdoctype.of_part hpart)
    ((noEscapedQuote_of_not_mem h.backslash).of_part hpart)

end TidyText

namespace Editable

variable {t : Text} {root : Tag} {w : Markup} {selfClosing : Bool} {content : Text}

/-- **The start tags of an editable document can be edited.** -/
theorem ready (h : Editable t root) (hw : w.Document) (hsource : w.source = t)
    (htags : w.tags [] = [root.bare]) : w.Ready := by
  intro selfClosing content hmem
  have hentries := hw.readable.isSome_of_mem hmem
  obtain ⟨st, rfl, htidy, hname, hback, token, htokenMem, hpieces⟩ :=
    h.tidyText.exists_tidy hw hsource htags hmem
  have hsilent := h.silent token htokenMem
  have hlists := h.lists token htokenMem
  rw [hpieces] at hsilent hlists
  have hclear : ∀ {word : Text}, IsWord word → Word.isStateList word = true →
      word ∈ [Word.includeIn, Word.excludeFrom, Word.states] → st.Clear word := by
    intro word hword hlist hlisted
    refine ⟨fun p hp => avoids_of_containsWord hword.chars (hsilent p hp word hlisted), ?_⟩
    rintro p hp rfl
    exact (isListText_iff.mp (hlists p hp hlist)).2
  refine ⟨st, rfl, ⟨htidy, hclear isWord_includeIn rfl (by simp), hclear isWord_excludeFrom rfl
    (by simp)⟩, ?_, ?_, starts_of_isXmlName hname, hback, hentries⟩
  · exact fun p hp => avoids_of_containsWord isWord_states.chars (hsilent p hp _ (by simp))
  · exact fun p hp hlist => (isListText_iff.mp (hlists p hp hlist)).1

/-- **So can the list of states on its root.** -/
theorem clear_states (h : Editable t root) (hw : w.Document) (hsource : w.source = t) {st : StartTag}
    (hst : st.Ready) (hfirst : w.first? = some (selfClosing, st.content)) :
    st.Clear Word.states ∧ ∀ p ∈ st.pieces, p.name = Word.states → '&' ∉ p.value := by
  obtain ⟨token, htokenMem, htoken⟩ := hw.exists_head hfirst
  have htidy := hst.listed.tidy
  have hpieces := htidy.regular.pieces_of_isToken htidy.name htidy.names htoken
  rw [hsource] at htokenMem
  have hlists := h.declared token htokenMem
  rw [hpieces] at hlists
  exact ⟨⟨hst.avoids, fun p hp hname => (isListText_iff.mp (hlists p hp hname)).2⟩,
    fun p hp hname => (isListText_iff.mp (hlists p hp hname)).1⟩

/-- **An editable document is the text of markup** that can be scanned and
read. -/
theorem exists_markup (h : Editable t root) (hdoctype : NoDoctype t)
    (hparse : parseStrict t = .ok root) :
    ∃ w : Markup, w.source = t ∧ w.Document ∧ w.tags [] = [root.bare] :=
  h.tidyText.exists_markup hdoctype hparse

end Editable

end SkinMarkup
