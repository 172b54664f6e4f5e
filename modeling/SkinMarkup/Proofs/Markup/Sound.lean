import SkinMarkup.Proofs.Markup.RootTag
import SkinMarkup.Proofs.State.Successors

/-!
# Start tags that can be written and read

A valid start tag is tidy and can be read, and a sound one has no backslash in it either;
every start tag of a tidy document is sound (`TidyText.exists_sound`). It stays so with any
other sound attributes of different names (`Sound.of_pieces`), and it is read attribute by
attribute (`Valid.entriesOf_content`). So a sound tag of the same name can be written in the
place of a start tag (`Sound.replaces`), and the root has its attributes then
(`Document.exists_rebound`).
-/

namespace SkinMarkup

/-! ## Attributes -/

namespace WrittenPiece

/-- An attribute that can be read. -/
structure Valid (p : WrittenPiece) : Prop where
  regular : p.Regular
  name : NameChars p.name
  spaced : p.lead ≠ []
  readable : ∃ value, unescape p.value = .ok value

/-- An attribute that can be read and scanned. -/
structure Sound (p : WrittenPiece) : Prop extends Valid p where
  backslash : '\\' ∉ p.source

/-- A written attribute as it is read. -/
def read (p : WrittenPiece) : Text × Text :=
  (p.name, (unescape p.value).toOption.getD [])

variable {p : WrittenPiece} {name value : Text}

theorem Valid.unescape_eq (h : p.Valid) : unescape p.value = .ok p.read.2 := by
  obtain ⟨value, hvalue⟩ := h.readable
  rw [read, hvalue]
  rfl

theorem read_of_not_mem (h : '&' ∉ p.value) : p.read = p.entry := by
  rw [read, unescape_of_not_mem h]
  rfl

/-- A new attribute. -/
theorem sound_usual (hne : name ≠ []) (hname : NameChars name) (hquote : '"' ∉ value)
    (hback : '\\' ∉ value) (hplain : '&' ∉ value) : (usual name value).Sound where
  regular := regular_usual (isSafeName_of_nameChars hne hname) hquote
  name := hname
  spaced := List.cons_ne_nil _ _
  backslash := by
    have hbackName : '\\' ∉ name := fun hmem => ne_of_isNameChar (hname _ hmem) (by decide) rfl
    simp [StartTag.mem_source, usual, hbackName, hback]
  readable := ⟨value, unescape_of_not_mem hplain⟩

/-- An attribute with another value. -/
theorem Sound.set (h : p.Sound) (hvalue : ListValue value) (hback : '\\' ∉ value)
    (hplain : '&' ∉ value) : Sound { p with value } where
  regular := by
    obtain ⟨q, hquote, hq, -⟩ := h.regular.quoted
    refine ⟨h.regular.skipped, h.regular.lead, h.regular.name, h.regular.assign, q, hquote, hq, ?_⟩
    rcases hq with rfl | rfl
    · exact hvalue.double
    · exact hvalue.single
  name := h.name
  spaced := h.spaced
  backslash := by
    have hold := h.backslash
    simp only [StartTag.mem_source, not_or] at hold ⊢
    exact ⟨hold.1, hold.2.1, hold.2.2.1, hold.2.2.2.1, hold.2.2.2.2.1, hback⟩
  readable := ⟨value, unescape_of_not_mem hplain⟩

/-- An attribute behind other blanks. -/
theorem Sound.respace (h : p.Sound) {lead : Text} (hne : lead ≠ []) (hlead : MarkupSpaces lead) :
    Sound { p with lead } where
  regular := ⟨h.regular.skipped, hlead, h.regular.name, h.regular.assign, h.regular.quoted⟩
  name := h.name
  spaced := hne
  backslash := by
    have hold := h.backslash
    simp only [StartTag.mem_source, not_or] at hold ⊢
    refine ⟨hold.1, fun hmem => ?_, hold.2.2⟩
    cases hlead _ hmem
  readable := h.readable

end WrittenPiece

/-! ## Start tags -/

/-- A start tag that can be read. -/
structure StartTag.Valid (t : StartTag) : Prop where
  tidy : t.Tidy
  starts : Event.Starts t.name
  readable : (entriesOf? t.content).isSome = true

/-- A start tag that can be read and scanned. -/
structure StartTag.Sound (t : StartTag) : Prop extends Valid t where
  backslash : '\\' ∉ t.content

namespace StartTag

variable {t t' : StartTag} {p : WrittenPiece} {l r pieces : List WrittenPiece} {name value : Text}

theorem Valid.piece (h : t.Valid) (hp : p ∈ t.pieces) : p.Valid := by
  have hread := h.readable
  rw [h.tidy.regular.entriesOf?_content, isSome_mapM_readEntry] at hread
  exact ⟨h.tidy.regular.pieces p hp, h.tidy.names p hp, h.tidy.spaced p hp,
    hread _ (List.mem_map_of_mem hp)⟩

theorem Sound.piece (h : t.Sound) (hp : p ∈ t.pieces) : p.Sound :=
  ⟨h.toValid.piece hp, fun hmem => h.backslash (mem_content_of_mem_source hp hmem)⟩

/-- **A start tag with other valid attributes is valid.** -/
theorem Valid.of_pieces (h : t.Valid) (hpieces : ∀ p ∈ pieces, p.Valid)
    (hnodup : (pieces.map (·.name)).Nodup) : Valid { t with pieces } := by
  have htidy : Tidy { t with pieces } := h.tidy.of_pieces
    (fun p hp => ⟨(hpieces p hp).regular, (hpieces p hp).name, (hpieces p hp).spaced⟩) hnodup
  refine ⟨htidy, h.starts, ?_⟩
  rw [htidy.regular.entriesOf?_content, isSome_mapM_readEntry]
  intro e he
  obtain ⟨p, hp, rfl⟩ := List.mem_map.mp he
  exact (hpieces p hp).readable

/-- **A start tag with other sound attributes is sound.** -/
theorem Sound.of_pieces (h : t.Sound) (hpieces : ∀ p ∈ pieces, p.Sound)
    (hnodup : (pieces.map (·.name)).Nodup) : Sound { t with pieces } := by
  refine ⟨h.toValid.of_pieces (fun p hp => (hpieces p hp).toValid) hnodup, ?_⟩
  have hold := h.backslash
  rw [mem_content, not_or, not_or] at hold
  rw [mem_content]
  rintro (hmem | ⟨p, hp, hmem⟩ | hmem)
  · exact hold.1 hmem
  · exact (hpieces p hp).backslash hmem
  · exact hold.2.2 hmem

/-- A start tag with a new attribute among the others. -/
theorem Sound.insert (h : t.Sound) (hsplit : t.pieces = l ++ r) (hp : p.Sound)
    (hnew : p.name ∉ t.pieces.map (·.name)) : Sound { t with pieces := l ++ p :: r } := by
  refine h.of_pieces ?_ ?_
  · intro q hq
    rw [List.mem_append, List.mem_cons] at hq
    rcases hq with hq | rfl | hq
    · exact h.piece (hsplit ▸ List.mem_append_left r hq)
    · exact hp
    · exact h.piece (hsplit ▸ List.mem_append_right l hq)
  · rw [List.map_append, List.map_cons]
    refine (List.perm_middle.nodup_iff).mpr (List.nodup_cons.mpr ⟨?_, ?_⟩)
    · rwa [← List.map_append, ← hsplit]
    · rw [← List.map_append, ← hsplit]
      exact h.tidy.regular.nodup

/-- A start tag with another attribute of the same name. -/
theorem Sound.swap {p' : WrittenPiece} (h : t.Sound) (hsplit : t.pieces = l ++ p :: r) (hp : p'.Sound)
    (hname : p'.name = p.name) : Sound { t with pieces := l ++ p' :: r } := by
  refine h.of_pieces ?_ ?_
  · intro q hq
    rw [List.mem_append, List.mem_cons] at hq
    rcases hq with hq | rfl | hq
    · exact h.piece (hsplit ▸ List.mem_append_left _ hq)
    · exact hp
    · exact h.piece (hsplit ▸ List.mem_append_right _ (List.mem_cons_of_mem p hq))
  · have hnodup := h.tidy.regular.nodup
    rw [hsplit, List.map_append, List.map_cons] at hnodup
    rwa [List.map_append, List.map_cons, hname]

/-- A start tag with other values, or with fewer attributes. -/
theorem Sound.rewrite (h : t.Sound) {f : ValueEdit}
    (hvalues : ∀ p ∈ t.pieces, ∀ value, f p.name p.value = some value →
      value = p.value ∨ ListValue value ∧ '\\' ∉ value ∧ '&' ∉ value) : (t.rewrite f).Sound := by
  refine h.of_pieces ?_ (h.tidy.regular.nodup.sublist (sublist_names_rewrite f t.pieces))
  intro p hp
  obtain ⟨x, hx, value, hvalue, rfl⟩ := mem_rewrite hp
  rcases hvalues x hx value hvalue with rfl | ⟨hlist, hback, hplain⟩
  · exact h.piece hx
  · exact (h.piece hx).set hlist hback hplain

theorem Sound.drop (h : t.Sound) (names : Text → Bool) : (t.rewrite (.drop names)).Sound := by
  refine h.rewrite fun p _ value hvalue => Or.inl ?_
  rw [ValueEdit.drop] at hvalue
  split at hvalue
  · cases hvalue
  · exact (Option.some.inj hvalue).symm

/-- **A valid start tag is read attribute by attribute.** -/
theorem Valid.entriesOf_content (h : t.Valid) :
    entriesOf t.content = t.pieces.map WrittenPiece.read := by
  have hall : ∀ {pieces : List WrittenPiece}, (∀ p ∈ pieces, p.Valid) →
      (pieces.map WrittenPiece.entry).mapM readEntry = some (pieces.map WrittenPiece.read) := by
    intro pieces hpieces
    induction pieces with
    | nil => rfl
    | cons p pieces ih =>
      obtain ⟨hp, hpieces⟩ := List.forall_mem_cons.mp hpieces
      exact mapM_readEntry_cons.mpr
        ⟨p.read, _, readEntry_eq_some.mpr ⟨rfl, hp.unescape_eq⟩, ih hpieces, rfl⟩
  rw [entriesOf, h.tidy.regular.entriesOf?_content, hall fun p hp => h.piece hp]
  rfl

/-- **A valid start tag can be read in the place of one of the same name.** -/
theorem Valid.substitutes (h : t'.Valid) (ht : t.Regular) (hname : t'.name = t.name)
    (selfClosing : Bool) : Markup.Substitutes selfClosing t.content t'.content := by
  refine ⟨h.tidy.regular.whole_start h.starts selfClosing, h.readable, ?_⟩
  rw [h.tidy.regular.elementName_content, ht.elementName_content, hname]

/-- **And a sound one can be scanned there.** -/
theorem Sound.replaces (h : t'.Sound) (ht : t.Regular) (hname : t'.name = t.name)
    (selfClosing : Bool) : Markup.Replaces selfClosing t.content t'.content :=
  ⟨h.toValid.substitutes ht hname selfClosing, h.backslash⟩

end StartTag

/-! ## Documents -/

section

variable {t : Text} {root : Tag} {w : Markup} {selfClosing : Bool} {content : Text}

/-- **The root has the attributes of its start tag.** -/
theorem Markup.entries_of_first {st : StartTag} (hfirst : w.first? = some (selfClosing, st.content))
    (htags : w.tags [] = [root.bare]) (h : st.Sound) :
    root.name = st.name ∧ root.entries = st.pieces.map WrittenPiece.read := by
  have helement := element_of_first hfirst htags
  rw [elementOf, h.entriesOf_content, h.tidy.regular.elementName_content] at helement
  exact ⟨congrArg Prod.fst helement, congrArg Prod.snd helement⟩

/-- **The start tags of a tidy document are sound.** -/
theorem TidyText.exists_sound (h : TidyText t root) (hw : w.Document) (hsource : w.source = t)
    (htags : w.tags [] = [root.bare]) (hmem : Event.start selfClosing content ∈ w.events) :
    ∃ st : StartTag, st.content = content ∧ st.Sound ∧ isXmlName st.name = true := by
  obtain ⟨st, rfl, htidy, hname, hback, -⟩ := h.exists_tidy hw hsource htags hmem
  exact ⟨st, rfl, ⟨⟨htidy, starts_of_isXmlName hname, hw.readable.isSome_of_mem hmem⟩, hback⟩, hname⟩

end

end SkinMarkup
