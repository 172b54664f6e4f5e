import SkinMarkup.Proofs.State.CopiedMarkup

/-!
# Start tags after an edit

An edit of the states in a document gives some attributes of a start tag other
values or other names, and adds or drops attributes. If each attribute that it
writes is as proper as those of an editable document (`WrittenPiece.Ready`), the
start tag can take the place of the old one and be edited again
(`StartTag.Successor`). A value that is a list of names is always proper
(`Quiet`).
-/

namespace SkinMarkup

/-! ## Values -/

/-- The attributes that lists of states are looked up by. -/
def Word.lists : List Text :=
  [Word.includeIn, Word.excludeFrom, Word.states]

theorem isWord_of_mem_lists {word : Text} (h : word ∈ Word.lists) : IsWord word := by
  simp only [Word.lists, List.mem_cons, List.not_mem_nil, or_false] at h
  rcases h with rfl | rfl | rfl
  · exact isWord_includeIn
  · exact isWord_excludeFrom
  · exact isWord_states

/-- A value that any attribute of an editable document can have. -/
structure Quiet (value : Text) : Prop where
  list : isListText value = true
  backslash : '\\' ∉ value
  avoids : ∀ word ∈ Word.lists, Avoids word value

section

variable {value part state : Text} {states : List Text}

theorem Quiet.plain (h : Quiet value) : '&' ∉ value :=
  (isListText_iff.mp h.list).1

theorem Quiet.listValue (h : Quiet value) : ListValue value :=
  (isListText_iff.mp h.list).2

theorem Quiet.of_part (h : Quiet value) (hpart : part <:+: value) : Quiet part where
  list := isListText_iff.mpr ⟨fun hmem => h.plain (hpart.subset hmem), h.listValue.of_part hpart⟩
  backslash := fun hmem => h.backslash (hpart.subset hmem)
  avoids := fun word hword => (h.avoids word hword).of_part hpart

theorem quiet_of_isStateName (h : isStateName state = true) : Quiet state where
  list := isListText_iff.mpr ⟨not_mem_of_isStateName h rfl, listValue_of_isStateName h⟩
  backslash := not_mem_of_isStateName h rfl
  avoids := fun word _ => avoids_of_isStateName h word

/-- **A list of names is a proper value.** -/
theorem Quiet.render (h : ∀ e ∈ states, Quiet e) : Quiet (StateList.render states) where
  list := isListText_iff.mpr ⟨not_mem_render (by decide) fun e he => (h e he).plain,
    ListValue.render fun e he => (h e he).listValue⟩
  backslash := not_mem_render (by decide) fun e he => (h e he).backslash
  avoids := fun word hword =>
    Avoids.render (isWord_of_mem_lists hword).comma fun e he => (h e he).avoids word hword

theorem Quiet.entries (h : Quiet value) : ∀ e ∈ StateList.entries value, Quiet e :=
  fun _ he => h.of_part (StateList.mem_entries he).2

end

/-! ## Attributes -/

/-- An attribute of a document whose states can be edited. -/
structure WrittenPiece.Ready (p : WrittenPiece) : Prop where
  regular : p.Regular
  name : NameChars p.name
  spaced : p.lead ≠ []
  backslash : '\\' ∉ p.source
  readable : ∃ read, unescape p.value = .ok read
  avoids : ∀ word ∈ Word.lists, Avoids word p.value
  list : Word.isStateList p.name = true → isListText p.value = true

section

variable {p : WrittenPiece} {value name : Text}

theorem WrittenPiece.Ready.quiet (h : p.Ready) (hlist : isListText p.value = true) :
    Quiet p.value :=
  ⟨hlist, fun hmem => h.backslash (by simp [StartTag.mem_source, hmem]), h.avoids⟩

/-- An attribute with another value. -/
theorem WrittenPiece.Ready.set (h : p.Ready) (hvalue : Quiet value) :
    WrittenPiece.Ready { p with value } where
  regular := by
    obtain ⟨q, hquote, hq, -⟩ := h.regular.quoted
    refine ⟨h.regular.skipped, h.regular.lead, h.regular.name, h.regular.assign, q, hquote, hq, ?_⟩
    rcases hq with rfl | rfl
    · exact hvalue.listValue.double
    · exact hvalue.listValue.single
  name := h.name
  spaced := h.spaced
  backslash := by
    have hold := h.backslash
    simp only [StartTag.mem_source, not_or] at hold ⊢
    exact ⟨hold.1, hold.2.1, hold.2.2.1, hold.2.2.2.1, hold.2.2.2.2.1, hvalue.backslash⟩
  readable := ⟨value, unescape_of_not_mem hvalue.plain⟩
  avoids := hvalue.avoids
  list := fun _ => hvalue.list

/-- A new attribute. -/
theorem WrittenPiece.ready_usual (hne : name ≠ []) (hname : NameChars name) (hvalue : Quiet value) :
    (WrittenPiece.usual name value).Ready where
  regular := WrittenPiece.regular_usual (isSafeName_of_nameChars hne hname) hvalue.listValue.double
  name := hname
  spaced := List.cons_ne_nil _ _
  backslash := by
    have hback : '\\' ∉ name := fun hmem => ne_of_isNameChar (hname _ hmem) (by decide) rfl
    simp [StartTag.mem_source, WrittenPiece.usual, hback, hvalue.backslash]
  readable := ⟨value, unescape_of_not_mem hvalue.plain⟩
  avoids := hvalue.avoids
  list := fun _ => hvalue.list

end

/-! ## Start tags -/

/-- Values can be read together if each of them can be read. -/
theorem isSome_mapM_readEntry {entries : List (Text × Text)} :
    (entries.mapM readEntry).isSome = true ↔ ∀ e ∈ entries, ∃ read, unescape e.2 = .ok read := by
  induction entries with
  | nil => simp
  | cons entry entries ih =>
    rw [Option.isSome_iff_exists, List.forall_mem_cons, ← ih, Option.isSome_iff_exists]
    constructor
    · rintro ⟨read, hread⟩
      obtain ⟨first, others, hfirst, hothers, -⟩ := mapM_readEntry_cons.mp hread
      exact ⟨⟨first.2, (readEntry_eq_some.mp hfirst).2⟩, others, hothers⟩
    · rintro ⟨⟨value, hvalue⟩, others, hothers⟩
      exact ⟨_, mapM_readEntry_cons.mpr
        ⟨(entry.1, value), others, readEntry_eq_some.mpr ⟨rfl, hvalue⟩, hothers, rfl⟩⟩

namespace StartTag

variable {t t' t'' : StartTag} {p : WrittenPiece} {pieces : List WrittenPiece} {selfClosing : Bool}
  {f : ValueEdit}

theorem Ready.piece (h : t.Ready) (hp : p ∈ t.pieces) : p.Ready := by
  have htidy := h.listed.tidy
  have hread := h.readable
  rw [htidy.regular.entriesOf?_content, isSome_mapM_readEntry] at hread
  have hclear : ∀ {word : Text}, Word.isStateList word = true → t.Clear word := by
    intro word hword
    rw [Word.isStateList, Bool.or_eq_true, beq_iff_eq, beq_iff_eq] at hword
    rcases hword with rfl | rfl
    · exact h.listed.includeIn
    · exact h.listed.excludeFrom
  refine ⟨htidy.regular.pieces p hp, htidy.names p hp, htidy.spaced p hp, fun hmem =>
    h.backslash (mem_content_of_mem_source hp hmem),
    hread _ (List.mem_map_of_mem hp), ?_, fun hlist =>
      isListText_iff.mpr ⟨h.plain p hp hlist, (hclear hlist).value p hp rfl⟩⟩
  intro word hword
  simp only [Word.lists, List.mem_cons, List.not_mem_nil, or_false] at hword
  rcases hword with rfl | rfl | rfl
  · exact h.listed.includeIn.avoids p hp
  · exact h.listed.excludeFrom.avoids p hp
  · exact h.avoids p hp

/-- **A start tag with proper attributes can be edited.** -/
theorem Ready.of_pieces (h : t.Ready) (hpieces : ∀ p ∈ pieces, p.Ready)
    (hnodup : (pieces.map (·.name)).Nodup) : Ready { t with pieces } := by
  have htidy : Tidy { t with pieces } := h.listed.tidy.of_pieces
    (fun p hp => ⟨(hpieces p hp).regular, (hpieces p hp).name, (hpieces p hp).spaced⟩) hnodup
  have hclear : ∀ {word : Text}, word ∈ Word.lists → Word.isStateList word = true →
      Clear word { t with pieces } := by
    intro word hword hlist
    refine ⟨fun p hp => (hpieces p hp).avoids word hword, ?_⟩
    rintro p hp rfl
    exact (isListText_iff.mp ((hpieces p hp).list hlist)).2
  refine ⟨⟨htidy, hclear (by simp [Word.lists]) rfl, hclear (by simp [Word.lists]) rfl⟩,
    fun p hp => (hpieces p hp).avoids _ (by simp [Word.lists]),
    fun p hp hlist => (isListText_iff.mp ((hpieces p hp).list hlist)).1, h.starts, ?_, ?_⟩
  · rw [mem_content]
    rintro (hmem | ⟨p, hp, hmem⟩ | hmem)
    · exact h.backslash (mem_content.mpr (Or.inl hmem))
    · exact (hpieces p hp).backslash hmem
    · exact h.backslash (mem_content.mpr (Or.inr (Or.inr hmem)))
  · rw [htidy.regular.entriesOf?_content, isSome_mapM_readEntry]
    intro e he
    obtain ⟨p, hp, rfl⟩ := List.mem_map.mp he
    exact (hpieces p hp).readable

/-! ### What is read -/

theorem Ready.elementOf_fst (h : t.Ready) : (elementOf t.content).1 = t.name :=
  h.listed.tidy.regular.elementName_content

/-- A value without references is read as it is written. -/
theorem Ready.valueIn?_of_plain (h : t.Ready) {word : Text}
    (hplain : ∀ p ∈ t.pieces, p.name = word → '&' ∉ p.value) :
    valueIn? word (elementOf t.content).2 = t.value? word := by
  rw [Markup.valueIn?_elementOf h.listed.tidy h.readable]
  cases hvalue : t.value? word with
  | none => rfl
  | some value =>
    obtain ⟨l, p, r, hsplit, hname, rfl⟩ := exists_split hvalue
    rw [Option.bind_some, unescape_of_not_mem (hplain p (mem_of_split hsplit).1 hname)]
    rfl

theorem Ready.valueIn?_eq (h : t.Ready) {word : Text} (hword : Word.isStateList word = true) :
    valueIn? word (elementOf t.content).2 = t.value? word :=
  h.valueIn?_of_plain fun p hp hname => h.plain p hp (hname ▸ hword)

/-- The names of a start tag's attributes are different. -/
theorem Ready.nodup_elementOf (h : t.Ready) :
    ((elementOf t.content).2.map Prod.fst).Nodup := by
  obtain ⟨entries, hentries⟩ := Option.isSome_iff_exists.mp h.readable
  rw [Markup.elementOf_content h.listed.tidy hentries, h.listed.tidy.regular.names_eq hentries]
  exact h.listed.tidy.regular.nodup

/-! ### Successors -/

/-- A start tag whose list of a document's states can be edited, if it has
one. -/
def Declaring (t : StartTag) : Prop :=
  ∀ p ∈ t.pieces, p.name = Word.states → isListText p.value = true

theorem Ready.clear_states (h : t.Ready) (hdeclaring : t.Declaring) : t.Clear Word.states :=
  ⟨h.avoids, fun p hp hname => (isListText_iff.mp (hdeclaring p hp hname)).2⟩

/-- A start tag that takes the place of another one in an edit. -/
structure Successor (t t' : StartTag) : Prop where
  ready : t'.Ready
  name : t'.name = t.name
  declaring : t.Declaring → t'.Declaring

theorem Ready.successor (h : t.Ready) : Successor t t :=
  ⟨h, rfl, id⟩

theorem Successor.trans (h : Successor t t') (h' : Successor t' t'') : Successor t t'' :=
  ⟨h'.ready, h'.name.trans h.name, fun hdeclaring => h'.declaring (h.declaring hdeclaring)⟩

/-- **A successor can be written in place of a start tag.** -/
theorem Successor.replaces (h : Successor t t') (ht : t.Ready) (selfClosing : Bool) :
    Markup.Replaces selfClosing t.content t'.content := by
  have htidy := h.ready.listed.tidy
  refine ⟨⟨htidy.regular.whole_start h.ready.starts selfClosing, h.ready.readable, ?_⟩,
    h.ready.backslash⟩
  rw [htidy.regular.elementName_content, ht.listed.tidy.regular.elementName_content, h.name]

theorem Successor.isBlock (h : Successor t t') (ht : t.Ready) (d : Dialect) :
    d.isBlock t'.content = d.isBlock t.content := by
  rw [h.ready.listed.tidy.regular.isBlock_content, ht.listed.tidy.regular.isBlock_content, h.name]

/-- A start tag with proper attributes, in which a list of the document's states
is a list. -/
theorem Ready.successor_of_pieces (h : t.Ready) (hpieces : ∀ p ∈ pieces, p.Ready)
    (hnodup : (pieces.map (·.name)).Nodup)
    (hdeclaring : t.Declaring → ∀ p ∈ pieces, p.name = Word.states → isListText p.value = true) :
    Successor t { t with pieces } :=
  ⟨h.of_pieces hpieces hnodup, rfl, hdeclaring⟩

/-- **A start tag with other proper values can be edited again.** -/
theorem Ready.successor_rewrite (h : t.Ready)
    (hvalues : ∀ p ∈ t.pieces, ∀ value, f p.name p.value = some value →
      value = p.value ∨ Quiet value) : Successor t (t.rewrite f) := by
  refine h.successor_of_pieces (fun p hp => ?_) (List.Nodup.sublist (sublist_names_rewrite f _)
    h.listed.tidy.regular.nodup) fun hdeclaring p hp hname => ?_
  · obtain ⟨x, hx, value, hvalue, rfl⟩ := mem_rewrite hp
    rcases hvalues x hx value hvalue with rfl | hquiet
    · exact h.piece hx
    · exact (h.piece hx).set hquiet
  · obtain ⟨x, hx, value, hvalue, rfl⟩ := mem_rewrite hp
    rcases hvalues x hx value hvalue with rfl | hquiet
    · exact hdeclaring x hx hname
    · exact hquiet.list

/-- **A start tag with one more attribute can be edited again.** -/
theorem Ready.successor_append (h : t.Ready) {name value : Text} (hne : name ≠ [])
    (hname : NameChars name) (hnew : name ∉ t.pieces.map (·.name)) (hvalue : Quiet value) :
    Successor t (t.append [.usual name value]) := by
  refine h.successor_of_pieces (fun p hp => ?_) ?_ fun hdeclaring p hp hstates => ?_
  · rcases List.mem_append.mp hp with hp | hp
    · exact h.piece hp
    · rw [List.mem_singleton.mp hp]
      exact WrittenPiece.ready_usual hne hname hvalue
  · rw [List.map_append, List.nodup_append]
    refine ⟨h.listed.tidy.regular.nodup, List.nodup_singleton _, ?_⟩
    rintro x hx y hy rfl
    rw [List.map_singleton, List.mem_singleton] at hy
    rw [hy] at hx
    exact hnew hx
  · rcases List.mem_append.mp hp with hp | hp
    · exact hdeclaring p hp hstates
    · rw [List.mem_singleton.mp hp]
      exact hvalue.list

end StartTag

/-- A start tag without attributes has none that can be read. -/
theorem Tag.attributes_eq_nil {st : StartTag} (h : st.Ready) {x : Tag}
    (helement : x.element = elementOf st.content) (hnil : st.pieces = []) :
    x.head.attributes = [] := by
  obtain ⟨entries, hentries⟩ := Option.isSome_iff_exists.mp h.readable
  have hnames := h.listed.tidy.regular.names_eq hentries
  rw [hnil, List.map_nil, List.map_eq_nil_iff] at hnames
  rw [Markup.elementOf_content h.listed.tidy hentries, hnames] at helement
  exact List.map_eq_nil_iff.mp (congrArg Prod.snd helement)

/-- The root of an editable document can be edited, and so can its list of
states. -/
theorem Editable.exists_declaring {t : Text} {root : Tag} {w : Markup} (h : Editable t root)
    (hw : w.Document) (hsource : w.source = t) (htags : w.tags [] = [root.bare]) :
    ∃ (selfClosing : Bool) (st : StartTag),
      w.first? = some (selfClosing, st.content) ∧ st.Ready ∧ st.Declaring := by
  obtain ⟨selfClosing, content, hfirst⟩ := hw.single.exists_first
  obtain ⟨st, rfl, hst⟩ := h.ready hw hsource htags selfClosing content
    (Markup.mem_events_of_first hfirst)
  obtain ⟨hclear, hplain⟩ := h.clear_states hw hsource hst hfirst
  exact ⟨selfClosing, st, hfirst, hst,
    fun p hp hname => isListText_iff.mpr ⟨hplain p hp hname, hclear.value p hp hname⟩⟩

end SkinMarkup
