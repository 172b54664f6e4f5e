import SkinMarkup.Proofs.Markup.Sound
import SkinMarkup.Proofs.State.RenamedTag
import SkinMarkup.Proofs.TagText.LaidSlots

/-!
# State edits of a tag as it is laid out

An edit of states gives some attributes of a start tag other values or other names,
and it adds attributes. If the tag is laid out, nothing else happens to it, whatever
its attributes are and however often they are there: it is laid out again, and the
attributes with names that the edit does not concern are as they were (`Reworked`).
-/

namespace SkinMarkup

/-- The names of attributes that edits of states look up. -/
def Word.sought : List Text :=
  [includeIn, excludeFrom, states, currentState, name]

theorem isWord_of_mem_sought {word : Text} (h : word ∈ Word.sought) : IsWord word := by
  simp only [Word.sought, List.mem_cons, List.not_mem_nil, or_false] at h
  rcases h with rfl | rfl | rfl | rfl | rfl
  exacts [isWord_includeIn, isWord_excludeFrom, isWord_states, isWord_currentState, isWord_name]

/-! ## Values -/

/-- A text that can take the place of a part of a value. -/
structure Fits (words : List Text) (part value : Text) : Prop where
  chars : ∀ c ∈ value, c = ',' ∨ isStateChar c = true ∨ c ∈ part
  spares : ∀ word ∈ words, Spares word value
  readable : Unescapable part → Unescapable value

section

variable {words states : List Text} {part value state : Text}

theorem unescapable_of_isStateName (h : isStateName state = true) : Unescapable state :=
  unescapable_of_not_mem (not_mem_of_isStateName h rfl)

theorem fits_of_isStateName (h : isStateName state = true) : Fits words part state where
  chars := fun _ hc => Or.inr (Or.inl (isStateChar_of_mem h hc))
  spares := fun word _ => spares_of_isStateName h word
  readable := fun _ => unescapable_of_isStateName h

/-- **A list of entries and names can take the place of a part.** -/
theorem fits_render (hwords : ∀ word ∈ words, IsWord word) (hpart : ∀ word ∈ words, Spares word part)
    (h : ∀ e ∈ states, e ∈ StateList.entries part ∨ isStateName e = true) :
    Fits words part (StateList.render states) where
  chars := by
    intro c hc
    rcases mem_joinWith hc with rfl | ⟨e, he, hc⟩
    · exact Or.inl rfl
    · rcases h e he with hentry | hname
      · exact Or.inr (Or.inr ((StateList.mem_entries hentry).2.subset hc))
      · exact Or.inr (Or.inl (isStateChar_of_mem hname hc))
  spares := by
    refine fun word hword => Spares.render (hwords word hword) fun e he => ?_
    rcases h e he with hentry | hname
    · exact (hpart word hword).of_part (StateList.mem_entries hentry).2
    · exact spares_of_isStateName hname word
  readable := fun hreadable => unescapable_render fun e he =>
    (h e he).elim hreadable.of_mem_entries unescapable_of_isStateName

theorem fits_names (hwords : ∀ word ∈ words, IsWord word)
    (h : ∀ e ∈ states, isStateName e = true) : Fits words [] (StateList.render states) :=
  fits_render hwords (fun word _ => spares_nil word) fun e he => Or.inr (h e he)

end

/-- An attribute with something else in its value. -/
theorem WrittenPiece.Laid.set {words : List Text} {p : WrittenPiece} {a part b value : Text}
    (h : p.Laid words) (hwords : ∀ word ∈ words, IsWord word) (hvalue : p.value = a ++ part ++ b)
    (hfits : Fits words part value) (hlast : ∀ c ∈ a.getLast?, c = '"' ∨ c = '\'')
    (hfirst : ∀ c ∈ b.head?, c = '"' ∨ c = '\'') :
    Laid words { p with value := a ++ value ++ b } := by
  have hnot : ∀ {c : Char}, c ≠ ',' → isStateChar c = false → c ∉ p.value →
      c ∉ a ++ value ++ b := by
    intro c hcomma hchar hc hmem
    rw [hvalue] at hc
    simp only [List.mem_append, not_or] at hc hmem
    rcases hmem with (hmem | hmem) | hmem
    · exact hc.1.1 hmem
    · rcases hfits.chars c hmem with heq | hname | hmem
      · exact hcomma heq
      · cases hchar.symm.trans hname
      · exact hc.1.2 hmem
    · exact hc.2 hmem
  have hleft : a <:+: p.value := hvalue ▸ ⟨[], part ++ b, by simp⟩
  have hright : b <:+: p.value := hvalue ▸ ⟨a ++ part, [], by simp⟩
  obtain ⟨q, hquote, hq, hmem⟩ := h.quoted
  refine ⟨⟨h.skipped, h.lead, h.named, h.name, h.assign, q, hquote, hq, ?_⟩, h.spaced, ?_, ?_⟩
  · rcases hq with rfl | rfl <;> exact hnot (by decide) (by decide) hmem
  · exact hnot (by decide) (by decide) h.backslash
  · intro word hword
    exact Spares.around (hwords word hword) ((h.spares word hword).of_part hleft)
      (hfits.spares word hword) ((h.spares word hword).of_part hright) hlast hfirst

/-- An attribute that is laid out is sound if it has the blanks of markup and its value
can be read. -/
theorem WrittenPiece.Laid.sound {words : List Text} {p : WrittenPiece} (h : p.Laid words)
    (hlead : MarkupSpaces p.lead)
    (hassign : ∃ l r, p.assign = l ++ '=' :: r ∧ MarkupSpaces l ∧ MarkupSpaces r)
    (hreadable : Unescapable p.value) : p.Sound where
  regular := ⟨h.skipped, hlead, isSafeName_of_nameChars h.named h.name, hassign, h.quoted⟩
  name := h.name
  spaced := h.spaced
  backslash := StartTag.not_mem_source h.toProper (by decide) (by decide) (by decide) h.backslash
  readable := hreadable

namespace StartTag

variable {words : List Text} {kept : Text → Bool} {t t' t'' : StartTag} {selfClosing : Bool}
  {name old new state : Text}

/-- A tag that is laid out again, with the same attributes of the names that are
kept. Attributes may be added, but they do not all go, and they are sound if they all
were. -/
structure Reworked (words : List Text) (kept : Text → Bool) (t t' : StartTag) : Prop where
  laid : t'.Laid words
  name : t'.name = t.name
  blanks : t'.blanks = t.blanks
  frame : (t'.pieces.filter fun p => kept p.name) = t.pieces.filter fun p => kept p.name
  bare : t'.pieces = [] → t.pieces = []
  sound : (∀ p ∈ t.pieces, p.Sound) → ∀ p ∈ t'.pieces, p.Sound

/-- A tag that is reworked and has the attributes it had, maybe with other values. -/
structure Revalued (words : List Text) (kept : Text → Bool) (t t' : StartTag) : Prop
    extends Reworked words kept t t' where
  names : t'.pieces.map (·.name) = t.pieces.map (·.name)

theorem Laid.revalued_refl (h : t.Laid words) (kept : Text → Bool) : Revalued words kept t t :=
  ⟨⟨h, rfl, rfl, rfl, id, id⟩, rfl⟩

theorem Reworked.trans (h : Reworked words kept t t') (h' : Reworked words kept t' t'') :
    Reworked words kept t t'' :=
  ⟨h'.laid, h'.name.trans h.name, h'.blanks.trans h.blanks, h'.frame.trans h.frame,
    h.bare ∘ h'.bare, h'.sound ∘ h.sound⟩

theorem Revalued.trans (h : Revalued words kept t t') (h' : Revalued words kept t' t'') :
    Revalued words kept t t'' :=
  ⟨h.toReworked.trans h'.toReworked, h'.names.trans h.names⟩

/-- **A sound tag is sound when it was reworked,** if names of attributes are different
still. -/
theorem Reworked.sound_of_nodup (h : Reworked words kept t t') (ht : t.Sound)
    (hnodup : (t'.pieces.map (·.name)).Nodup) : t'.Sound := by
  obtain ⟨name, pieces, blanks⟩ := t'
  obtain ⟨-, rfl, rfl, -, -, hsound⟩ := h
  exact ht.of_pieces (hsound fun p hp => ht.piece hp) hnodup

theorem Revalued.sound_of_sound (h : Revalued words kept t t') (ht : t.Sound) : t'.Sound :=
  h.sound_of_nodup ht (h.names ▸ ht.tidy.regular.nodup)

/-- An edit that gives attributes of every tag that it changes other values. -/
def Revalues (words : List Text) (kept : Text → Bool) (edit : Text → Option Text) : Prop :=
  ∀ (t : StartTag) (selfClosing : Bool) (tag : Text), t.Laid words →
    edit (t.text selfClosing) = some tag →
      ∃ t', Revalued words kept t t' ∧ tag = t'.text selfClosing

theorem Revalues.editOr {edit : Text → Option Text} (h : Revalues words kept edit)
    (ht : t.Laid words) (selfClosing : Bool) :
    ∃ t', Revalued words kept t t' ∧
      SkinMarkup.editOr edit (t.text selfClosing) = t'.text selfClosing := by
  cases hedit : edit (t.text selfClosing) with
  | none => exact ⟨t, ht.revalued_refl kept, by rw [SkinMarkup.editOr, hedit]; rfl⟩
  | some tag =>
    obtain ⟨t', hrevalued, rfl⟩ := h t selfClosing tag ht hedit
    exact ⟨t', hrevalued, by rw [SkinMarkup.editOr, hedit]; rfl⟩

/-! ## Edits in a slot -/

section

variable (hwords : ∀ word ∈ words, IsWord word)

include hwords

/-- **Another text in a value,** between quotes that stand in it or its ends. -/
theorem Laid.revalued_refill {l r : List WrittenPiece} {p : WrittenPiece} {a part b value : Text}
    (h : t.Laid words) (hsplit : t.pieces = l ++ p :: r) (hvalue : p.value = a ++ part ++ b)
    (hlast : ∀ c ∈ a.getLast?, c = '"' ∨ c = '\'') (hfirst : ∀ c ∈ b.head?, c = '"' ∨ c = '\'')
    (hkept : kept p.name = false) (hfits : Fits words part value) :
    Revalued words kept t { t with pieces := l ++ { p with value := a ++ value ++ b } :: r } := by
  obtain ⟨hp, hl, hr⟩ := mem_of_split hsplit
  have hlaid : WrittenPiece.Laid words { p with value := a ++ value ++ b } :=
    (h.pieces p hp).set hwords hvalue hfits hlast hfirst
  -- The other attributes are as they were.
  have hall : ∀ {P : WrittenPiece → Prop}, (∀ x ∈ t.pieces, P x) →
      P { p with value := a ++ value ++ b } →
        ∀ x ∈ l ++ { p with value := a ++ value ++ b } :: r, P x := by
    intro P hpieces hpiece x hx
    rcases List.mem_append.mp hx with hx | hx
    · exact hpieces x (hl hx)
    · rcases List.mem_cons.mp hx with rfl | hx
      · exact hpiece
      · exact hpieces x (hr hx)
  refine ⟨⟨⟨h.name, hall h.pieces hlaid, h.blanks⟩, rfl, rfl, ?_, fun hnil => by simp at hnil,
    fun hsound => hall hsound ?_⟩, by simp [hsplit]⟩
  · rw [hsplit, List.filter_append, List.filter_append, List.filter_cons_of_neg (by simp [hkept]),
      List.filter_cons_of_neg (by simp [hkept])]
  · have hold := hsound p hp
    have hreadable : Unescapable (a ++ part ++ b) := hvalue ▸ hold.readable
    exact hlaid.sound hold.regular.lead hold.regular.assign
      (hreadable.replace hlast hfirst hfits.readable)

/-- Another text in a slot. -/
theorem SlotIn.revalued {slot : ValueSlot} {l r : List WrittenPiece} {p : WrittenPiece}
    {a b value : Text} (h : SlotIn selfClosing t name slot l p r a b) (ht : t.Laid words)
    (hkept : kept name = false) (hfits : Fits words slot.value value) :
    Revalued words kept t { t with pieces := l ++ { p with value := a ++ value ++ b } :: r } :=
  ht.revalued_refill hwords h.split h.value h.last h.first (h.name.symm ▸ hkept) hfits

theorem revalues_of_slot {edit : Text → Option Text} (hname : name ∈ words)
    (hkept : kept name = false)
    (hedit : ∀ tag tag', edit tag = some tag' → ∃ slot value, ValueSlot.find? name tag = some slot ∧
      tag' = slot.replace value ∧
        ((∀ word ∈ words, Spares word slot.value) → Fits words slot.value value)) :
    Revalues words kept edit := by
  intro t selfClosing tag ht hsome
  obtain ⟨slot, value, hfind, rfl, hfits⟩ := hedit _ tag hsome
  obtain ⟨l, p, r, a, b, hslot⟩ := ht.exists_slotIn hname (hwords name hname) hfind
  have hp := ht.pieces p (mem_of_split hslot.split).1
  have hpart : slot.value <:+: p.value := hslot.value ▸ List.infix_append a slot.value b
  exact ⟨_, hslot.revalued hwords ht hkept (hfits fun word hword => (hp.spares word hword).of_part hpart),
    hslot.replace_eq hp.skipped value⟩

theorem revalues_extend (hname : name ∈ words) (hkept : kept name = false)
    (hstate : isStateName state = true) (condition : List Text → Bool) :
    Revalues words kept (StateList.extend name state condition) := by
  refine revalues_of_slot hwords hname hkept fun tag tag' hedit => ?_
  rw [StateList.extend] at hedit
  obtain ⟨slot, hfind, hedit⟩ := Option.bind_eq_some_iff.mp hedit
  dsimp only at hedit
  split at hedit
  · cases hedit
  · cases hedit
    refine ⟨slot, _, hfind, rfl, fun hspares => fits_render hwords hspares fun e he => ?_⟩
    rcases List.mem_append.mp he with he | he
    · exact Or.inl he
    · rw [List.mem_singleton.mp he]
      exact Or.inr hstate

theorem revalues_rename (hname : name ∈ words) (hkept : kept name = false)
    (hnew : isStateName new = true) (old : Text) :
    Revalues words kept (StateList.rename name old new) := by
  refine revalues_of_slot hwords hname hkept fun tag tag' hedit => ?_
  rw [StateList.rename] at hedit
  obtain ⟨slot, hfind, hedit⟩ := Option.bind_eq_some_iff.mp hedit
  dsimp only at hedit
  split at hedit
  · cases hedit
    refine ⟨slot, _, hfind, rfl, fun hspares => fits_render hwords hspares fun e he => ?_⟩
    obtain ⟨s, hs, rfl⟩ := List.mem_map.mp he
    split
    · exact Or.inr hnew
    · exact Or.inl hs
  · cases hedit

theorem revalues_renameValue (hname : name ∈ words) (hkept : kept name = false)
    (hnew : isStateName new = true) (old : Text) :
    Revalues words kept (renameValue name old new) := by
  refine revalues_of_slot hwords hname hkept fun tag tag' hedit => ?_
  rw [renameValue] at hedit
  obtain ⟨slot, hfind, hedit⟩ := Option.bind_eq_some_iff.mp hedit
  split at hedit
  · cases hedit
    exact ⟨slot, new, hfind, rfl, fun _ => fits_of_isStateName hnew⟩
  · cases hedit

/-- A shorter list in a slot. -/
theorem Laid.exists_shorter {slot : ValueSlot} (h : t.Laid words) (hname : name ∈ words) (hkept : kept name = false)
    (hfind : ValueSlot.find? name (t.text selfClosing) = some slot) {states : List Text}
    (hstates : states ⊆ StateList.entries slot.value) :
    ∃ t', Revalued words kept t t' ∧
      slot.replace (StateList.render states) = t'.text selfClosing := by
  obtain ⟨l, p, r, a, b, hslot⟩ := h.exists_slotIn hname (hwords name hname) hfind
  have hp := h.pieces p (mem_of_split hslot.split).1
  have hpart : slot.value <:+: p.value := hslot.value ▸ List.infix_append a slot.value b
  exact ⟨_, hslot.revalued hwords h hkept (fits_render hwords
    (fun word hword => (hp.spares word hword).of_part hpart) fun e he => Or.inl (hstates he)),
    hslot.replace_eq hp.skipped _⟩

/-- Dropping a state from the list of those that a tag appears in. -/
theorem Laid.exists_dropIncluded (h : t.Laid words) (hname : Word.includeIn ∈ words)
    (hkept : kept Word.includeIn = false) {tag : Text}
    (hdrop : dropIncluded state (t.text selfClosing) = some tag) :
    ∃ t', Revalued words kept t t' ∧ tag = t'.text selfClosing := by
  rw [dropIncluded] at hdrop
  split at hdrop
  · cases hdrop
    exact ⟨t, h.revalued_refl kept, rfl⟩
  · next slot hfind =>
    dsimp only at hdrop
    split at hdrop
    · split at hdrop
      · cases hdrop
      · cases hdrop
        exact h.exists_shorter hwords hname hkept hfind List.erase_subset
    · cases hdrop
      exact ⟨t, h.revalued_refl kept, rfl⟩

end

/-! ## Names of attributes -/

theorem Laid.renameAttributes_text (h : t.Laid words) (old new : Text) (selfClosing : Bool) :
    renameAttributes old new (t.text selfClosing) = (t.relabeled old new).text selfClosing := by
  rw [renameAttributes, h.ofText_text, TagText.renamed, text, content, relabeled]
  simp [List.flatMap_map, relabel]

/-- A start tag without the attributes for one state. -/
def stripped (state : Text) (t : StartTag) : StartTag :=
  { t with pieces := t.pieces.filter fun p => (stemFor? state p.name).isNone }

theorem Laid.stripped (h : t.Laid words) (state : Text) : (t.stripped state).Laid words :=
  ⟨h.name, fun p hp => h.pieces p (List.mem_of_mem_filter hp), h.blanks⟩

theorem Laid.stripAttributes_text (h : t.Laid words) (state : Text) (selfClosing : Bool) :
    stripAttributes state (t.text selfClosing) = (t.stripped state).text selfClosing := by
  have hpieces : (t.pieces.flatMap fun p =>
      if (stemFor? state p.name).isSome then p.skipped else p.source) =
        (t.stripped state).pieces.flatMap WrittenPiece.source := by
    have hskipped : ∀ p ∈ t.pieces, p.skipped = [] := fun p hp => (h.pieces p hp).skipped
    rw [StartTag.stripped]
    dsimp only
    generalize t.pieces = pieces at hskipped
    induction pieces with
    | nil => rfl
    | cons p pieces ih =>
      obtain ⟨hp, hpieces⟩ := List.forall_mem_cons.mp hskipped
      cases hstem : stemFor? state p.name <;> simp [hstem, hp, ih hpieces]
  rw [stripAttributes, h.ofText_text, TagText.without, hpieces]
  simp [text, content, StartTag.stripped]

theorem nameChars_suffixed {stem : Text} (hstem : NameChars stem) (hstate : isStateName state = true) :
    NameChars (stem ++ '.' :: state) := by
  intro c hc
  rcases List.mem_append.mp hc with hc | hc
  · exact hstem c hc
  · rcases List.mem_cons.mp hc with rfl | hc
    · decide
    · exact nameChars_of_isStateName hstate c hc

/-- Attributes for one state under the names of those for another. -/
theorem Laid.reworked_relabeled (h : t.Laid words) (hnew : isStateName new = true)
    (hkept : ∀ stem, stem ≠ [] → kept (stem ++ '.' :: old) = false ∧
      kept (stem ++ '.' :: new) = false) : Reworked words kept t (t.relabeled old new) := by
  have hpiece : ∀ p ∈ t.pieces,
      WrittenPiece.Laid words { p with name := relabel old new p.name } := by
    intro p hp
    have hlaid := h.pieces p hp
    rcases relabel_cases old new p.name with heq | ⟨stem, -, hname, heq⟩
    · rw [heq]
      exact hlaid
    · have hchars : NameChars (stem ++ '.' :: new) :=
        nameChars_suffixed (fun c hc => hlaid.name c (hname ▸ List.mem_append_left _ hc)) hnew
      rw [heq]
      exact ⟨⟨hlaid.skipped, hlaid.lead, by simp, hchars, hlaid.assign, hlaid.quoted⟩,
        hlaid.spaced, hlaid.backslash, hlaid.spares⟩
  refine ⟨⟨h.name, List.forall_mem_map.mpr hpiece, h.blanks⟩, rfl, rfl, ?_, List.map_eq_nil_iff.mp,
    fun hsound => List.forall_mem_map.mpr fun p hp => ?_⟩
  · rw [relabeled]
    dsimp only
    induction t.pieces with
    | nil => rfl
    | cons p pieces ih =>
      rw [List.map_cons]
      rcases relabel_cases old new p.name with heq | ⟨stem, hne, hname, heq⟩
      · rw [heq, List.filter_cons, List.filter_cons, ih]
      · obtain ⟨hold, hnew⟩ := hkept stem hne
        rw [List.filter_cons_of_neg (by simp [heq, hnew]),
          List.filter_cons_of_neg (by simp [hname, hold]), ih]
  · have hold := hsound p hp
    exact (hpiece p hp).sound hold.regular.lead hold.regular.assign hold.readable

/-! ## More attributes -/

theorem Laid.reworked_append (h : t.Laid words) {pieces : List WrittenPiece}
    (hpieces : ∀ p ∈ pieces, p.Laid words ∧ kept p.name = false)
    (hsound : (∀ p ∈ t.pieces, p.Sound) → ∀ p ∈ pieces, p.Sound) :
    Reworked words kept t (t.append pieces) := by
  refine ⟨⟨h.name, List.forall_mem_append.mpr ⟨h.pieces, fun p hp => (hpieces p hp).1⟩, h.blanks⟩,
    rfl, rfl, ?_, fun hnil => (List.append_eq_nil_iff.mp hnil).1,
    fun hall => List.forall_mem_append.mpr ⟨hall, hsound hall⟩⟩
  have hnone : (pieces.filter fun p => kept p.name) = [] :=
    List.filter_eq_nil_iff.mpr fun p hp => by simp [(hpieces p hp).2]
  rw [append]
  dsimp only
  rw [List.filter_append, hnone, List.append_nil]

theorem Laid.insertRaw_text (h : t.Laid words) (hend : t.pieces = [] → t.Solid)
    (pieces : List WrittenPiece) (selfClosing : Bool) :
    insertRaw (.ofStart selfClosing)
        (pieces.flatMap WrittenPiece.source) (t.text selfClosing) =
      (t.append pieces).text selfClosing := by
  refine StartTag.insertRaw_text h.blanks.blanks ?_ pieces selfClosing
  by_cases hnil : t.pieces = []
  · rw [hnil]
    exact (hend hnil).trimEnd_upTo
  · refine trimEnd_upTo hnil fun p hp => ?_
    obtain ⟨q, hquote, hq, -⟩ := (h.pieces p hp).quoted
    exact ⟨q, hquote, hq⟩

theorem Laid.insertAttribute_text (h : t.Laid words) (hend : t.pieces = [] → t.Solid)
    (name value : Text) (selfClosing : Bool) :
    insertAttribute (.ofStart selfClosing) name value (t.text selfClosing) =
      (t.append [.usual name value]).text selfClosing := by
  rw [← h.insertRaw_text hend, insertAttribute]
  simp [attributeText, WrittenPiece.usual, WrittenPiece.source, WrittenPiece.extent,
    WrittenPiece.quoted]

theorem proper_usual {value : Text} (hne : name ≠ []) (hname : NameChars name)
    (hvalue : '"' ∉ value) : (WrittenPiece.usual name value).Proper where
  skipped := rfl
  lead := by
    intro c hc
    rw [List.mem_singleton.mp hc]
    rfl
  named := hne
  name := hname
  assign := ⟨[], [], rfl, nofun, nofun⟩
  quoted := ⟨'"', rfl, Or.inl rfl, hvalue⟩

theorem laid_usual (hname : IsWord name) {value : Text} (hfits : Fits words [] value) :
    (WrittenPiece.usual name value).Laid words := by
  have hnot : ∀ {c : Char}, c ≠ ',' → isStateChar c = false → c ∉ value := by
    intro c hcomma hchar hmem
    rcases hfits.chars c hmem with heq | hstate | hmem
    · exact hcomma heq
    · cases hchar.symm.trans hstate
    · cases hmem
  exact ⟨proper_usual hname.nonempty hname.chars (hnot (by decide) (by decide)),
    List.cons_ne_nil _ _, hnot (by decide) (by decide), hfits.spares⟩

/-- **A new attribute reworks the tag.** -/
theorem Laid.reworked_usual (h : t.Laid words) (hname : IsWord name) (hkept : kept name = false)
    {value : Text} (hfits : Fits words [] value) :
    Reworked words kept t (t.append [.usual name value]) := by
  have hlaid : (WrittenPiece.usual name value).Laid words := laid_usual hname hfits
  refine h.reworked_append (List.forall_mem_singleton.mpr ⟨hlaid, hkept⟩) fun _ =>
    List.forall_mem_singleton.mpr ?_
  exact hlaid.sound (by rintro c (_ | ⟨_, ⟨⟩⟩); rfl) ⟨[], [], rfl, nofun, nofun⟩
    (hfits.readable (unescapable_of_not_mem (by simp)))

/-! ## Copies of attributes -/

/-- An attribute for another state is laid out like the one it is a copy of. -/
theorem Laid.laid_copy (h : t.Laid words) (hstate : isStateName state = true) {model : Text}
    {q : WrittenPiece} (hq : q ∈ t.copies model state) : q.Laid words := by
  obtain ⟨p, hp, stem, -, hname, rfl⟩ := mem_copies hq
  have hlaid := h.pieces p hp
  have hchars : NameChars (stem ++ '.' :: state) :=
    nameChars_suffixed (fun c hc => hlaid.name c (hname ▸ List.mem_append_left _ hc)) hstate
  refine ⟨⟨hlaid.skipped, ?_, by simp, hchars, ⟨[], [], rfl, nofun, nofun⟩, hlaid.quoted⟩,
    List.cons_ne_nil _ _, hlaid.backslash, hlaid.spares⟩
  intro c hc
  rw [List.mem_singleton.mp hc]
  rfl

theorem Laid.reworked_copies (h : t.Laid words) (hstate : isStateName state = true)
    (hkept : ∀ stem, stem ≠ [] → kept (stem ++ '.' :: state) = false) (model : Text) :
    Reworked words kept t (t.append (t.missingCopies model state)) := by
  refine h.reworked_append (fun q hq => ⟨h.laid_copy hstate (List.mem_filter.mp hq).1, ?_⟩)
    fun hsound q hq => ?_
  · obtain ⟨p, -, stem, hstem, -, rfl⟩ := mem_copies (List.mem_filter.mp hq).1
    exact hkept stem hstem
  · have hlaid := h.laid_copy hstate (List.mem_filter.mp hq).1
    obtain ⟨p, hp, stem, -, -, rfl⟩ := mem_copies (List.mem_filter.mp hq).1
    refine hlaid.sound ?_ ⟨[], [], rfl, nofun, nofun⟩ (hsound p hp).readable
    intro c hc
    rw [List.mem_singleton.mp hc]
    rfl

/-- **Copying attributes in a tag's text adds those that are missing.** -/
theorem Laid.copyAttributes_text (h : t.Laid words) (model state : Text) (selfClosing : Bool) :
    copyAttributes (.ofStart selfClosing) model state (t.text selfClosing) =
      (t.append (t.missingCopies model state)).text selfClosing := by
  rw [copyAttributes, h.ofText_text, copiedAttributes_eq_missing (fun p hp =>
    ⟨(h.pieces p hp).skipped, (h.pieces p hp).quoted.imp fun _ h => h.1⟩)]
  split
  · next hnil => rw [missingCopies_eq_nil hnil, append, List.append_nil]
  · next hne =>
    refine h.insertRaw_text (fun hnil => ?_) _ selfClosing
    -- A tag without attributes has none to copy.
    rw [missingCopies, copies, hnil] at hne
    exact absurd rfl hne

/-! ## The edits of a tag -/

/-- The names that an edit concerns are not kept: those of the attributes that it looks
up, `words`, and those of attributes for the states `states` alone. -/
structure Spared (words states : List Text) (kept : Text → Bool) : Prop where
  words : ∀ word ∈ words, kept word = false
  stems : ∀ state ∈ states, ∀ stem, stem ≠ [] → kept (stem ++ '.' :: state) = false

theorem spared_none (words states : List Text) : Spared words states fun _ => false :=
  ⟨fun _ _ => rfl, fun _ _ _ _ => rfl⟩

theorem Spared.mono {words' states : List Text} (h : Spared words states kept)
    (hsub : words' ⊆ words) : Spared words' states kept :=
  ⟨fun word hword => h.words word (hsub hword), h.stems⟩

section

variable (hwords : ∀ word ∈ words, IsWord word) (h : t.Laid words)

include hwords h

/-- **Copying a state in a tag's text.** The names of attributes stay different. -/
theorem Laid.exists_copyTag {states : List Text} {model : Text} (hexclude : Word.excludeFrom ∈ words)
    (hinclude : model ≠ [] → Word.includeIn ∈ words)
    (hkept : Spared [Word.includeIn, Word.excludeFrom] states kept)
    (hmem : state ∈ states) (hstate : isStateName state = true) (selfClosing : Bool) :
    ∃ t', Reworked words kept t t' ∧
      ((t.pieces.map (·.name)).Nodup → (t'.pieces.map (·.name)).Nodup) ∧
      copyTag (.ofStart selfClosing) model state (t.text selfClosing) = t'.text selfClosing := by
  have hextend : ∀ word ∈ words, kept word = false → ∀ condition,
      Revalues words kept (StateList.extend word state condition) := fun word hword hkept condition =>
    revalues_extend hwords hword hkept hstate condition
  have hkeptIn : kept Word.includeIn = false := hkept.words _ (by simp)
  have hkeptOut : kept Word.excludeFrom = false := hkept.words _ (by simp)
  rw [copyTag]
  split
  · obtain ⟨t', hrevalued, htext⟩ := (hextend _ hexclude hkeptOut _).editOr h selfClosing
    exact ⟨t', hrevalued.toReworked, fun hnodup => hrevalued.names ▸ hnodup, htext⟩
  · next hmodel =>
    obtain ⟨t₁, h₁, htext₁⟩ := (hextend _ hexclude hkeptOut (·.contains model)).editOr h selfClosing
    obtain ⟨t₂, h₂, htext₂⟩ :=
      (hextend _ (hinclude hmodel) hkeptIn (·.contains model)).editOr h₁.laid selfClosing
    refine ⟨t₂.append (t₂.missingCopies model state), (h₁.trans h₂).toReworked.trans
      (h₂.laid.reworked_copies hstate (hkept.stems state hmem) model), fun hnodup => ?_, ?_⟩
    · exact nodup_append_missing ((h₁.trans h₂).names ▸ hnodup) model state
    · dsimp only
      rw [htext₁, htext₂, h₂.laid.copyAttributes_text]

/-- **Scoping a component out in a tag's text.** It is listed as missing, or else the
states it appears in are. -/
theorem Laid.scopeOut_cases {allStates : List Text} (hexclude : Word.excludeFrom ∈ words)
    (hkept : kept Word.excludeFrom = false) (hstate : isStateName state = true) {tag : Text}
    (hscope : scopeOut (.ofStart selfClosing) allStates state (t.text selfClosing) = some tag) :
    (∃ t', Revalued words kept t t' ∧ tag = t'.text selfClosing) ∨
      ValueSlot.find? Word.includeIn (t.text selfClosing) = none ∧
        ValueSlot.find? Word.excludeFrom (t.text selfClosing) = none ∧ allStates ≠ [] ∧
        tag = insertAttribute (.ofStart selfClosing) Word.includeIn (StateList.render allStates)
          (t.text selfClosing) := by
  rw [scopeOut] at hscope
  split at hscope
  · cases hscope
  · next hnone =>
    split at hscope
    · exact Or.inl (revalues_extend hwords hexclude hkept hstate _ t selfClosing tag h hscope)
    · next hnone' =>
      split at hscope
      · cases hscope
      · next hne =>
        cases hscope
        exact Or.inr ⟨by simpa using hnone, by simpa using hnone', hne, rfl⟩

theorem Laid.exists_scopeOut {allStates : List Text} (hexclude : Word.excludeFrom ∈ words)
    (hkept : kept Word.excludeFrom = false) (hinclude : kept Word.includeIn = false)
    (hstate : isStateName state = true) (hstates : ∀ s ∈ allStates, isStateName s = true)
    (hend : allStates ≠ [] → t.pieces = [] → t.Solid) {tag : Text}
    (hscope : scopeOut (.ofStart selfClosing) allStates state (t.text selfClosing) = some tag) :
    ∃ t', Reworked words kept t t' ∧ tag = t'.text selfClosing := by
  rcases h.scopeOut_cases hwords hexclude hkept hstate hscope with ⟨t', hrevalued, htext⟩ |
    ⟨-, -, hne, rfl⟩
  · exact ⟨t', hrevalued.toReworked, htext⟩
  · exact ⟨_, h.reworked_usual isWord_includeIn hinclude (fits_names hwords hstates),
      h.insertAttribute_text (hend hne) _ _ selfClosing⟩

omit h in
/-- **Renaming a state in a tag's text** gives values that have it another one, and then
the names of the attributes for the state. The state to start in comes first. -/
theorem exists_renameInTag (hinclude : Word.includeIn ∈ words)
    (hexclude : Word.excludeFrom ∈ words)
    (hkept : Spared [Word.includeIn, Word.excludeFrom] [old, new] kept) (hnew : isStateName new = true)
    (hcurrent : ∃ t₁, Revalued words kept t t₁ ∧
      editOr (renameValue Word.currentState old new) (t.text selfClosing) = t₁.text selfClosing) :
    ∃ t', Revalued words kept t t' ∧ Reworked words kept t (t'.relabeled old new) ∧
      renameInTag old new (t.text selfClosing) = (t'.relabeled old new).text selfClosing := by
  have hrename : ∀ word ∈ words, kept word = false →
      Revalues words kept (StateList.rename word old new) := fun word hword hkept =>
    revalues_rename hwords hword hkept hnew old
  obtain ⟨t₁, h₁, htext₁⟩ := hcurrent
  obtain ⟨t₂, h₂, htext₂⟩ :=
    (hrename _ hinclude (hkept.words _ (by simp))).editOr h₁.laid selfClosing
  obtain ⟨t₃, h₃, htext₃⟩ :=
    (hrename _ hexclude (hkept.words _ (by simp))).editOr h₂.laid selfClosing
  have hrevalued := (h₁.trans h₂).trans h₃
  refine ⟨t₃, hrevalued, hrevalued.toReworked.trans (h₃.laid.reworked_relabeled hnew fun stem hstem =>
    ⟨hkept.stems old (by simp) stem hstem, hkept.stems new (by simp) stem hstem⟩), ?_⟩
  rw [renameInTag, htext₁]
  rw [htext₂, htext₃, h₃.laid.renameAttributes_text]

/-- A tag that is renamed as the declaration of a state or as any other one. -/
theorem Laid.exists_renamed
    (hin : [Word.includeIn, Word.excludeFrom, Word.currentState] ⊆ words)
    (hkept : Spared words [old, new] kept) (hnew : isStateName new = true)
    {declaring : Prop} (hname : declaring → Word.name ∈ words) {tag : Text}
    (hcases : declaring ∧ renameValue Word.name old new (t.text selfClosing) = some tag ∨
      tag = renameInTag old new (t.text selfClosing)) :
    ∃ t', Reworked words kept t t' ∧ tag = t'.text selfClosing := by
  have hvalue : ∀ word ∈ words, Revalues words kept (renameValue word old new) :=
    fun word hword => revalues_renameValue hwords hword (hkept.words word hword) hnew old
  rcases hcases with ⟨hdeclaring, hdeclaration⟩ | rfl
  · obtain ⟨t', hrevalued, htext⟩ := hvalue _ (hname hdeclaring) t selfClosing tag h hdeclaration
    exact ⟨t', hrevalued.toReworked, htext⟩
  · obtain ⟨t', -, hreworked, htext⟩ := exists_renameInTag hwords (hin (by simp)) (hin (by simp))
      (hkept.mono (List.Subset.trans (by simp) hin)) hnew
      ((hvalue _ (hin (by simp))).editOr h selfClosing)
    exact ⟨_, hreworked, htext⟩

end

end StartTag

end SkinMarkup
