import SkinMarkup.Proofs.State.Enrolled
import SkinMarkup.Proofs.State.LaidEdits
import SkinMarkup.Proofs.TagText.Values

/-!
# State edits of sound tags

A start tag that can be written and read can be written and read again after an edit of
states, if the edit finds the attributes that it looks up: no value spells their names,
an attribute that may be inserted is found if it is there (`Receives`), and one that may
be cut out is found as a whole (`Yields`). Where an edit of a root does not concern the
list of states, that list stays as it is (`Supersedes`).
-/

namespace SkinMarkup

/-- What is found among the elements of a list that are looked at stays if these
stay. -/
theorem find?_of_filter {α : Type} {l l' : List α} {p q : α → Bool}
    (h : l'.filter p = l.filter p) (hq : ∀ a, q a = true → p a = true) : l'.find? q = l.find? q := by
  have hfind : ∀ l : List α, l.find? q = (l.filter p).find? q := by
    intro l
    rw [List.find?_filter]
    congr 1
    funext a
    cases hqa : q a with
    | false => simp
    | true => simp [hq a hqa]
  rw [hfind l', hfind l, h]

namespace StartTag

variable {t t' t'' : StartTag} {words allStates : List Text} {name old new state tag : Text}
  {cut : WrittenPiece → Prop} {selfClosing : Bool} {slot : ValueSlot} {pieces : List WrittenPiece}

/-! ## What is found -/

/-- A start tag in which an attribute is found, and which can get it if it has not got
it. -/
structure Receives (name : Text) (t : StartTag) : Prop where
  spares : ∀ p ∈ t.pieces, Spares name p.value
  legible : ∀ p ∈ t.pieces, p.name = name → p.Legible
  solid : t.pieces = [] → t.Solid

/-- A start tag from which an attribute goes as a whole if it is cut out. -/
structure Yields (name : Text) (cut : WrittenPiece → Prop) (t : StartTag) : Prop where
  spares : ∀ p ∈ t.pieces, Spares name p.value
  entire : ∀ p ∈ t.pieces, p.name = name → p.Entire
  solid : ∀ p ∈ t.pieces, p.name = name → cut p → t.Solid

/-- An attribute that is entire is found where it is. -/
theorem Spaced.exists_slotAt (ht : t.Spaced) (hname : IsWord name)
    (hspares : ∀ p ∈ t.pieces, Spares name p.value)
    (hentire : ∀ p ∈ t.pieces, p.name = name → p.Entire)
    (hfind : ValueSlot.find? name (t.text selfClosing) = some slot) :
    ∃ l p r, t.pieces = l ++ p :: r ∧ p.name = name ∧ SlotAt selfClosing t l p r slot := by
  by_cases hmem : name ∈ t.pieces.map (·.name)
  · obtain ⟨p, hp, rfl⟩ := List.mem_map.mp hmem
    obtain ⟨l, r, hsplit⟩ := List.append_of_mem hp
    exact ⟨l, p, r, hsplit, rfl, ht.slotAt_of_entire hsplit hspares (hentire p hp rfl) hfind⟩
  · rw [ht.find?_eq_none hname.nonempty hname.chars hmem hspares] at hfind
    cases hfind

/-- An attribute that is not found is not there. -/
theorem Receives.not_mem (h : t.Receives name) (ht : t.Spaced)
    (hfind : ValueSlot.find? name (t.text selfClosing) = none) : name ∉ t.pieces.map (·.name) := by
  intro hmem
  obtain ⟨p, hp, rfl⟩ := List.mem_map.mp hmem
  obtain ⟨l, r, hsplit⟩ := List.append_of_mem hp
  have hspan := (ht.valueSpan_eq_iff hsplit h.spares selfClosing).mpr (h.legible p hp rfl)
  rw [hfind] at hspan
  cases hspan

/-- **What is cut out is an attribute.** -/
theorem Yields.exists_remove (h : t.Yields name cut) (ht : t.Spaced) (hname : IsWord name)
    (hfind : ValueSlot.find? name (t.text selfClosing) = some slot) :
    ∃ l p r, t.pieces = l ++ p :: r ∧ p.name = name ∧ slot.value = p.value ∧
      ((l = [] → cut p) → slot.remove = text selfClosing { t with pieces := l ++ r }) := by
  obtain ⟨l, p, r, hsplit, hpname, hslot⟩ := ht.exists_slotAt hname h.spares h.entire hfind
  obtain ⟨hp, hl, -⟩ := mem_of_split hsplit
  refine ⟨l, p, r, hsplit, hpname, hslot.value, fun hcut => ?_⟩
  obtain ⟨q, hquote, -, -⟩ := (ht.pieces p hp).quoted
  have htrim : trimEnd (t.upTo l) = t.upTo l := by
    by_cases hnil : l = []
    · rw [hnil]
      exact (h.solid p hp hpname (hcut hnil)).trimEnd_upTo
    · refine trimEnd_upTo hnil fun x hx => ?_
      obtain ⟨q, hquote, hq, -⟩ := (ht.pieces x (hl hx)).quoted
      exact ⟨q, hquote, hq⟩
  rw [hslot.remove_eq hquote, htrim, text_eq rfl]
  rfl

/-! ## Tags in the place of others -/

theorem Valid.content_injective (h : t.Valid) (h' : t'.Valid) (hcontent : t.content = t'.content) :
    t = t' := by
  rw [← h.tidy.ofContent_content, hcontent, h'.tidy.ofContent_content]

theorem Sound.laid_singleton (h : t.Sound) (hspares : ∀ p ∈ t.pieces, Spares name p.value) :
    t.Laid [name] :=
  h.tidy.laid h.backslash fun p hp _ hword => List.mem_singleton.mp hword ▸ hspares p hp

theorem Laid.cons (h : t.Laid words) (hspares : ∀ p ∈ t.pieces, Spares name p.value) :
    t.Laid (name :: words) where
  name := h.name
  pieces := fun p hp => ⟨(h.pieces p hp).toProper, (h.pieces p hp).spaced, (h.pieces p hp).backslash,
    List.forall_mem_cons.mpr ⟨hspares p hp, (h.pieces p hp).spares⟩⟩
  blanks := h.blanks

/-- A start tag that is sound without some of its attributes. -/
theorem Sound.of_sublist (h : t.Sound) (hpieces : pieces.Sublist t.pieces) :
    Sound { t with pieces } :=
  h.of_pieces (fun _ hp => h.piece (hpieces.subset hp))
    (h.tidy.regular.nodup.sublist (hpieces.map _))

/-- A sound tag that is laid out for further edits, in the place of one with the same
name and the same list of states. -/
structure Supersedes (words : List Text) (t t' : StartTag) : Prop where
  sound : t'.Sound
  laid : t'.Laid words
  name : t'.name = t.name
  states : ∀ p ∈ t'.pieces, p.name = Word.states → p ∈ t.pieces

theorem Sound.supersedes (h : t.Sound) (hlaid : t.Laid words) : Supersedes words t t :=
  ⟨h, hlaid, rfl, fun _ hp _ => hp⟩

theorem Supersedes.trans (h : Supersedes words t t') (h' : Supersedes words t' t'') :
    Supersedes words t t'' :=
  ⟨h'.sound, h'.laid, h'.name.trans h.name, fun p hp hname => h.states p (h'.states p hp hname) hname⟩

/-- What an edit that keeps the list of states makes of a root still gets one. -/
theorem Supersedes.receives (h : Supersedes words t t') (hbare : t'.pieces = [] → t.pieces = [])
    (hname : Word.states ∈ words) (hreceives : t.Receives Word.states) :
    t'.Receives Word.states where
  spares := fun p hp => (h.laid.pieces p hp).spares _ hname
  legible := fun p hp hstates => hreceives.legible p (h.states p hp hstates) hstates
  solid := fun hnil => by
    rw [Solid, h.name]
    exact hreceives.solid (hbare hnil)

/-- And the list goes from it as before. -/
theorem Supersedes.yields (h : Supersedes words t t') (hname : Word.states ∈ words)
    (hyields : t.Yields Word.states cut) : t'.Yields Word.states cut where
  spares := fun p hp => (h.laid.pieces p hp).spares _ hname
  entire := fun p hp hstates => hyields.entire p (h.states p hp hstates) hstates
  solid := fun p hp hstates hcut => by
    rw [Solid, h.name]
    exact hyields.solid p (h.states p hp hstates) hstates hcut

theorem Sound.supersedes_of_sublist (h : t.Sound) (hlaid : t.Laid words)
    (hpieces : pieces.Sublist t.pieces) : Supersedes words t { t with pieces } where
  sound := h.of_sublist hpieces
  laid := ⟨hlaid.name, fun p hp => hlaid.pieces p (hpieces.subset hp), hlaid.blanks⟩
  name := rfl
  states := fun _ hp _ => hpieces.subset hp

/-- An attribute that is kept was there before. -/
theorem Reworked.mem_of_kept {kept : Text → Bool} {p : WrittenPiece}
    (h : Reworked words kept t t') (hp : p ∈ t'.pieces) (hkept : kept p.name = true) :
    p ∈ t.pieces := by
  have hmem : p ∈ t'.pieces.filter fun p => kept p.name := List.mem_filter.mpr ⟨hp, hkept⟩
  rw [h.frame] at hmem
  exact List.mem_of_mem_filter hmem

/-- The value of an attribute that is kept stays. -/
theorem Reworked.value?_eq {kept : Text → Bool} (h : Reworked words kept t t')
    (hkept : kept name = true) : t'.value? name = t.value? name := by
  rw [value?, value?, find?_of_filter h.frame]
  intro p hp
  rw [of_decide_eq_true hp, hkept]

theorem Reworked.supersedes {kept : Text → Bool} (h : Reworked words kept t t')
    (hkept : kept Word.states = true) (ht : t'.Sound) : Supersedes words t t' where
  sound := ht
  laid := h.laid
  name := h.name
  states := fun _ hp hname => h.mem_of_kept hp (hname ▸ hkept)

theorem Revalued.supersedes {kept : Text → Bool} (h : Revalued words kept t t')
    (hkept : kept Word.states = true) (ht : t.Sound) : Supersedes words t t' :=
  h.toReworked.supersedes hkept (h.sound_of_sound ht)

theorem spared_states (states : List Text) :
    Spared [Word.includeIn, Word.excludeFrom] states (· == Word.states) where
  words := by decide
  stems := by
    intro state _ stem _
    refine beq_eq_false_iff_ne.mpr fun heq => ?_
    have hdot : '.' ∈ Word.states := heq ▸ by simp
    exact isWord_states.dot hdot

/-- **An attribute that is not found is inserted.** -/
theorem Receives.insert {kept : Text → Bool} {value : Text} (hreceives : t.Receives name)
    (h : t.Sound) (hlaid : t.Laid words) (hname : IsWord name) (hkept : kept name = false)
    (hfits : Fits words [] value) (hfind : ValueSlot.find? name (t.text selfClosing) = none) :
    Reworked words kept t (t.append [.usual name value]) ∧
      (t.append [.usual name value]).Sound ∧
      insertAttribute (.ofStart selfClosing) name value (t.text selfClosing) =
        (t.append [.usual name value]).text selfClosing := by
  have hreworked : Reworked words kept t (t.append [.usual name value]) :=
    hlaid.reworked_usual hname hkept hfits
  refine ⟨hreworked, hreworked.sound_of_nodup h ?_,
    hlaid.insertAttribute_text hreceives.solid _ _ selfClosing⟩
  rw [append, List.map_append]
  exact List.nodup_append_comm.mp (List.nodup_cons.mpr
    ⟨hreceives.not_mem h.tidy.toSpaced hfind, h.tidy.regular.nodup⟩)

section

variable (hwords : ∀ word ∈ words, IsWord word) (h : t.Sound) (hlaid : t.Laid words)

include hwords h hlaid

/-! ## Creating a state -/

theorem Sound.exists_copied {kept : Text → Bool} {model : Text}
    (hkept : Spared [Word.includeIn, Word.excludeFrom] [state] kept)
    (hexclude : Word.excludeFrom ∈ words) (hinclude : model ≠ [] → Word.includeIn ∈ words)
    (hstate : isStateName state = true) (selfClosing : Bool) :
    ∃ t', Reworked words kept t t' ∧ t'.Sound ∧
      copyTag (.ofStart selfClosing) model state (t.text selfClosing) = t'.text selfClosing := by
  obtain ⟨t', hreworked, hnodup, htext⟩ := hlaid.exists_copyTag hwords hexclude hinclude hkept
    List.mem_cons_self hstate selfClosing
  exact ⟨t', hreworked, hreworked.sound_of_nodup h (hnodup h.tidy.regular.nodup), htext⟩

omit hwords hlaid in
/-- **A root with one more state in its list.** -/
theorem Sound.exists_declared {kept : Text → Bool} {token : Token}
    (hreceives : t.Receives Word.states) (hkept : kept Word.states = false)
    (hstate : isStateName state = true) (hkind : token.kind = .ofStart selfClosing)
    (htext : token.text = t.text selfClosing) :
    ∃ t', Reworked [Word.states] kept t t' ∧ t'.Sound ∧
      t'.value? Word.states = some (declaredValue state (t.value? Word.states)) ∧
      declaredTag state token = t'.text selfClosing := by
  have hword : ∀ word ∈ [Word.states], IsWord word := List.forall_mem_singleton.mpr isWord_states
  have hlaid : t.Laid [Word.states] := h.laid_singleton hreceives.spares
  rw [declaredTag, hkind, htext]
  cases hfind : ValueSlot.find? Word.states (t.text selfClosing) with
  | none =>
    obtain ⟨hreworked, hsound, hinsert⟩ : Reworked [Word.states] kept t _ ∧ _ :=
      hreceives.insert h hlaid isWord_states hkept (fits_of_isStateName hstate) hfind
    refine ⟨_, hreworked, hsound, ?_, hinsert⟩
    have hnone : t.value? Word.states = none := by
      rw [Option.eq_none_iff_forall_ne_some]
      intro value hvalue
      obtain ⟨l, p, r, hsplit, hname, -⟩ := exists_split hvalue
      exact hreceives.not_mem h.tidy.toSpaced hfind
        (hname ▸ List.mem_map_of_mem (mem_of_split hsplit).1)
    rw [hnone]
    exact hsound.tidy.value?_of_mem (List.mem_append_right _ List.mem_cons_self)
  | some slot =>
    obtain ⟨l, p, r, hsplit, hname, hslot⟩ := h.tidy.toSpaced.exists_slotAt isWord_states
      hreceives.spares (fun p hp hname => (hreceives.legible p hp hname).imp_right And.right) hfind
    have hp := (mem_of_split hsplit).1
    have hvalue : t.value? Word.states = some p.value := hname ▸ h.tidy.value?_of_mem hp
    rw [hvalue, declaredValue, Option.isSome_some, if_pos rfl, editOr, StateList.extend, hfind]
    dsimp only [bind, Option.bind]
    rw [hslot.value, Bool.not_true, Bool.or_false]
    by_cases hmem : (StateList.entries p.value).contains state = true
    · rw [if_pos hmem, if_pos hmem]
      exact ⟨t, (hlaid.revalued_refl kept).toReworked, h, hvalue, rfl⟩
    · rw [if_neg hmem, if_neg hmem]
      have hentries : ∀ e ∈ StateList.entries p.value ++ [state],
          e ∈ StateList.entries p.value ∨ isStateName e = true := fun e he =>
        (List.mem_append.mp he).imp_right fun he => by rw [List.mem_singleton.mp he, hstate]
      have hrevalued : Revalued [Word.states] kept t _ := hlaid.revalued_refill hword hsplit
        (a := []) (b := []) (by simp) (by simp) (by simp) (hname ▸ hkept)
        (fits_render hword (hlaid.pieces p hp).spares hentries)
      have hsound := hrevalued.sound_of_sound h
      have hnew := hsound.tidy.value?_of_mem (List.mem_append_right l List.mem_cons_self)
      refine ⟨_, hrevalued.toReworked, hsound, ?_, ?_⟩
      · rw [← hname, hnew, List.nil_append, List.append_nil]
      · rw [Option.getD_some, hslot.replace_eq (hlaid.pieces p hp).skipped, List.nil_append,
          List.append_nil]

/-! ## Renaming a state -/

/-- A tag in which the name of a state is respelled, wherever a search finds it. -/
theorem Sound.exists_respelled (hold : isStateName old = true) (hnew : isStateName new = true)
    (hrename : renameValue name old new (t.text selfClosing) = some tag) :
    ∃ t', Revalued words (fun _ => false) t t' ∧ tag = t'.text selfClosing := by
  obtain ⟨t', l, p, r, a, v, b, hrespelled, htext⟩ := h.tidy.exists_respelled hold hrename
  have hrevalued : Revalued words (fun _ => false) t _ :=
    hlaid.revalued_refill hwords hrespelled.split hrespelled.value hrespelled.last
      hrespelled.first rfl (fits_of_isStateName hnew)
  exact ⟨_, hrevalued, by rw [htext, hrespelled.eq]⟩

/-- **A tag with a renamed state is sound** if no attribute for the old name is in the way
of one for the new. -/
theorem Sound.exists_renamed (hinclude : Word.includeIn ∈ words)
    (hexclude : Word.excludeFrom ∈ words) (hold : isStateName old = true)
    (hnew : isStateName new = true) (hlabels : t.Relabelable old new)
    (hcases : renameValue Word.name old new (t.text selfClosing) = some tag ∨
      tag = renameInTag old new (t.text selfClosing)) :
    ∃ t' : StartTag, t'.Sound ∧ t'.Laid words ∧ t'.name = t.name ∧ tag = t'.text selfClosing := by
  rcases hcases with hdeclaration | rfl
  · obtain ⟨t', hrevalued, htext⟩ := h.exists_respelled hwords hlaid hold hnew hdeclaration
    exact ⟨t', hrevalued.sound_of_sound h, hrevalued.laid, hrevalued.name, htext⟩
  · have hcurrent : ∃ t₁, Revalued words (fun _ => false) t t₁ ∧
        editOr (renameValue Word.currentState old new) (t.text selfClosing) =
          t₁.text selfClosing := by
      rw [editOr]
      cases hrename : renameValue Word.currentState old new (t.text selfClosing) with
      | none => exact ⟨t, hlaid.revalued_refl _, rfl⟩
      | some tag => exact h.exists_respelled hwords hlaid hold hnew hrename
    obtain ⟨t', hrevalued, hreworked, htext⟩ :=
      exists_renameInTag hwords hinclude hexclude (spared_none _ _) hnew hcurrent
    have hlabels' : t'.Relabelable old new := by
      rw [Relabelable, hrevalued.names]
      exact hlabels
    have hnodup := hlabels'.nodup (hrevalued.names ▸ h.tidy.regular.nodup)
    exact ⟨_, hreworked.sound_of_nodup h hnodup, hreworked.laid, hreworked.name, htext⟩

/-- A root with a renamed state in its list. -/
theorem Sound.exists_relisted (hname : Word.states ∈ words) (hnew : isStateName new = true)
    (hrename : StateList.rename Word.states old new (t.text selfClosing) = some tag) :
    ∃ t' : StartTag, t'.Sound ∧ t'.name = t.name ∧ tag = t'.text selfClosing := by
  obtain ⟨t', hrevalued, htext⟩ : ∃ t', Revalued words (fun _ => false) t t' ∧ _ :=
    revalues_rename hwords hname rfl hnew old t selfClosing tag hlaid hrename
  exact ⟨t', hrevalued.sound_of_sound h, hrevalued.name, htext⟩

/-! ## Removing a state -/

/-- A list that loses a state, or its attribute if the state was the only one. The other
attributes stay. -/
theorem Sound.exists_dropped (hname : name ∈ words)
    (hyields : t.Yields name fun p => StateList.entries p.value = [state])
    (hfind : ValueSlot.find? name (t.text selfClosing) = some slot)
    (hmem : state ∈ StateList.entries slot.value) :
    ∃ t' : StartTag, t'.Sound ∧ t'.Laid words ∧ t'.name = t.name ∧
      (∀ p ∈ t'.pieces, p.name ≠ name → p ∈ t.pieces) ∧
      StateList.drop slot state = t'.text selfClosing := by
  rw [StateList.drop]
  split
  · next hnil =>
    obtain ⟨l, p, r, hsplit, -, hvalue, hremove⟩ :=
      hyields.exists_remove h.tidy.toSpaced (hwords name hname) hfind
    have hentries : StateList.entries slot.value = [state] :=
      (List.erase_eq_nil_iff.mp hnil).resolve_left (List.ne_nil_of_mem hmem)
    have hpieces : (l ++ r).Sublist t.pieces := by
      rw [hsplit]
      exact List.Sublist.append_left (List.sublist_cons_self p r) l
    have hsupersedes := h.supersedes_of_sublist hlaid hpieces
    exact ⟨_, hsupersedes.sound, hsupersedes.laid, rfl, fun _ hp _ => hpieces.subset hp,
      hremove fun _ => hvalue ▸ hentries⟩
  · obtain ⟨t', hrevalued, htext⟩ : ∃ t', Revalued words (· != name) t t' ∧ _ :=
      hlaid.exists_shorter hwords hname (by simp) hfind List.erase_subset
    exact ⟨t', hrevalued.sound_of_sound h, hrevalued.laid, hrevalued.name,
      fun p hp hne => hrevalued.mem_of_kept hp (bne_iff_ne.mpr hne), htext⟩

/-- **A tag that loses a state is sound.** -/
theorem Sound.exists_removed (hinclude : Word.includeIn ∈ words)
    (hexclude : Word.excludeFrom ∈ words)
    (hyields : t.Yields Word.excludeFrom fun p => StateList.entries p.value = [state])
    (hremove : removeFromTag state allStates (t.text selfClosing) = some tag) :
    ∃ t', Supersedes words t t' ∧ tag = t'.text selfClosing := by
  obtain ⟨tag₁, hexcluded, hremove⟩ := Option.bind_eq_some_iff.mp hremove
  obtain ⟨tag₂, hincluded, hremove⟩ := Option.bind_eq_some_iff.mp hremove
  cases hremove
  obtain ⟨t₁, h₁, rfl⟩ : ∃ t₁, Supersedes words t t₁ ∧ tag₁ = t₁.text selfClosing := by
    rw [dropExcluded] at hexcluded
    split at hexcluded
    · cases hexcluded
      exact ⟨t, h.supersedes hlaid, rfl⟩
    · next slot hfind =>
      dsimp only at hexcluded
      split at hexcluded
      · next hmem =>
        cases hexcluded
        obtain ⟨t₁, hsound, hlaid₁, hname, hothers, htext⟩ :=
          h.exists_dropped hwords hlaid hexclude hyields hfind (List.contains_iff_mem.mp hmem)
        refine ⟨t₁, ⟨hsound, hlaid₁, hname, fun p hp hstates => hothers p hp ?_⟩, htext⟩
        rw [hstates]
        decide
      · split at hexcluded
        · cases hexcluded
        · cases hexcluded
          exact ⟨t, h.supersedes hlaid, rfl⟩
  obtain ⟨t₂, hrevalued, rfl⟩ : ∃ t₂, Revalued words (· == Word.states) t₁ t₂ ∧ _ :=
    h₁.laid.exists_dropIncluded hwords hinclude (by decide) hincluded
  have h₂ := h₁.trans (hrevalued.supersedes (by decide) h₁.sound)
  exact ⟨_, h₂.trans (h₂.sound.supersedes_of_sublist h₂.laid List.filter_sublist),
    h₂.laid.stripAttributes_text state selfClosing⟩

end

end StartTag

end SkinMarkup
