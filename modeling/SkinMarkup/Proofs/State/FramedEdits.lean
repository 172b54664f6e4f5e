import SkinMarkup.Proofs.State.Framed
import SkinMarkup.Proofs.State.LocatedEdits

/-!
# What edits of states leave alone

Creating or renaming a state keeps the frame of an editable document
(`framed_of_stateEdit`). The revisions keep it at every token (`frames_copy`,
`frames_rename`, `frames_blank`), because the start tags of such a document are laid
out (`Editable.exists_isTag`); so does the edit of the list on the root
(`exists_declaredTag`).
-/

namespace SkinMarkup

/-! ## The edits -/

section

variable {d : Dialect} {state old new : Text} {allStates names : List Text} {s : Segment}
  (hcut : s.token.IsCut)
  (htag : s.token.isStart = true → ∃ t selfClosing, s.token.IsTag (d.words s.token) t selfClosing)

include hcut htag

/-- An edit that reworks start tags frames segments. -/
theorem Edits.frames {states : List Text} {σ : Type} {act : σ → Token → σ × Action}
    {flags : σ → List Text → Prop} {edit : List Text → Token → Text} (h : Edits d act flags edit)
    (hedit : s.token.localName ≠ d.declarations → ∀ t selfClosing,
      s.token.IsTag (d.words s.token) t selfClosing → ∃ t',
        edit names.tail s.token = t'.text selfClosing ∧
          StartTag.Reworked (d.words s.token) (d.spares states s.token) t t') :
    Frames d states act flags names s where
  isCut := hcut
  tag := htag
  other := fun hother _ _ hflags => h.other hother hflags
  block := h.block
  start := by
    rintro hname t selfClosing ht memory opened hflags rfl
    obtain ⟨memory', action, hact, hflags', hcases⟩ := h.start ht.isStart hname hflags
    obtain ⟨t', htext, hreworked⟩ := hedit hname t selfClosing ht
    rw [Segment.around, if_pos ht.isStart, List.tail_cons] at htext
    refine ⟨memory', action, hact, hflags', hcases.imp And.left ?_⟩
    rintro rfl
    exact ⟨t', by rw [htext], hreworked⟩

theorem frames_copy (hstate : isStateName state = true) (model : Text) :
    Frames d [state] (fun (_ : Unit) token => ((), copyAction d model state token))
      (fun _ _ => True) names s := by
  refine (edits_copy d model state).frames hcut htag fun _ t selfClosing ht => ?_
  obtain ⟨t', hreworked, -, htext⟩ := ht.laid.exists_copyTag
    (fun _ => Dialect.isWord_of_mem_words) (d.subset_words s.token (by simp))
    (fun _ => d.subset_words s.token (by simp))
    (d.spared_lists [state] s.token) List.mem_cons_self hstate selfClosing
  exact ⟨t', by rw [ht.kind, ht.text, htext], hreworked⟩

theorem frames_rename (hnew : isStateName new = true) (old : Text) :
    Frames d [old, new] (renameAction d old new) (fun _ _ => True) names s where
  isCut := hcut
  tag := htag
  other := fun h met _ _ => ⟨met, renameAction_of_not_isStart h, trivial⟩
  block := fun h hname _ => renameAction_of_declarations h hname
  start := by
    intro hname t selfClosing ht met _ _ _
    obtain ⟨met', tag, haction, hcases⟩ := renameAction_of_isStart_cases ht.isStart hname
    rw [ht.text] at hcases
    have hin : [Word.includeIn, Word.excludeFrom, Word.currentState] ⊆ d.words s.token := fun _ h =>
      d.subset_words s.token (by
        simp only [List.mem_cons, List.not_mem_nil, or_false] at h ⊢
        tauto)
    obtain ⟨t', hreworked, rfl⟩ := ht.laid.exists_renamed (fun _ => Dialect.isWord_of_mem_words) hin
      (d.spared [old, new] s.token) hnew (fun hlocal => by simp [Dialect.words, hlocal]) hcases
    exact ⟨met', _, haction, trivial, Or.inr ⟨t', rfl, hreworked⟩⟩

theorem frames_blank (hstate : isStateName state = true)
    (hstates : ∀ s ∈ allStates, isStateName s = true)
    (hsolid : allStates ≠ [] → d.isScoped (d.standing names.tail) s.token.name = true →
      ∀ t selfClosing, s.token.IsTag (d.words s.token) t selfClosing → t.pieces = [] → t.Solid) :
    Frames d [state] (blankAction d allStates state) (fun levels opened => levels = d.flags opened)
      names s := by
  refine (edits_blank d allStates state).frames hcut htag fun _ t selfClosing ht => ?_
  rw [blankEdit]
  split
  · next hscoped =>
    rw [ht.kind, ht.text, editOr]
    cases hscope : scopeOut (.ofStart selfClosing) allStates state (t.text selfClosing) with
    | none => exact ⟨t, rfl, (ht.laid.revalued_refl _).toReworked⟩
    | some tag =>
      obtain ⟨t', hreworked, rfl⟩ := ht.laid.exists_scopeOut (fun _ => Dialect.isWord_of_mem_words)
        (d.subset_words s.token (by simp))
        (Dialect.spares_of_mem_words (d.subset_words s.token (by simp)) [state])
        (Dialect.spares_of_mem_words (d.subset_words s.token (by simp)) _) hstate hstates
        (fun hne => hsolid hne hscoped t selfClosing ht) hscope
      exact ⟨t', rfl, hreworked⟩
  · exact ⟨t, ht.text, (ht.laid.revalued_refl _).toReworked⟩

end

/-- The list on the root is edited in a tag that is reworked. -/
theorem exists_declaredTag {words : List Text} {kept : Text → Bool} {state : Text}
    {token : Token} {t : StartTag} {selfClosing : Bool}
    (h : token.IsTag words t selfClosing) (hwords : ∀ word ∈ words, IsWord word)
    (hin : Word.states ∈ words) (hkept : kept Word.states = false)
    (hstate : isStateName state = true) (hend : t.pieces = [] → t.Solid) :
    ∃ t', declaredTag state token = t'.text selfClosing ∧ StartTag.Reworked words kept t t' := by
  rw [declaredTag, h.kind, h.text]
  split
  · obtain ⟨t', hrevalued, htext⟩ :=
      (StartTag.revalues_extend hwords hin hkept hstate fun _ => true).editOr h.laid selfClosing
    exact ⟨t', htext, hrevalued.toReworked⟩
  · exact ⟨_, h.laid.insertAttribute_text hend _ _ selfClosing,
      h.laid.reworked_usual isWord_states hkept (fits_of_isStateName hstate)⟩

/-! ## Editable documents -/

section

variable {t : Text} {root : Tag} {d : Dialect} (h : Editable t root) (hdoctype : NoDoctype t)
  (hparse : parseStrict t = .ok root)
  (hsilent : ∀ token ∈ startTokens t, ∀ p ∈ token.pieces, ∀ word ∈ d.words token,
    containsWord word p.value = false)

include h hdoctype hparse

theorem Editable.exists_element : ∃ s ∈ (scan t).segments, s.token.isElement = true := by
  obtain ⟨w, rfl, hw, -⟩ := h.exists_markup hdoctype hparse
  obtain ⟨selfClosing, content, hfirst⟩ := hw.single.exists_first
  obtain ⟨token, hhead, -⟩ := hw.exists_head hfirst
  have hmem := List.mem_of_mem_head? hhead
  rw [Markup.startTokens_eq, List.mem_filter, List.mem_map] at hmem
  obtain ⟨⟨s, hs, rfl⟩, hstart⟩ := hmem
  exact ⟨s, hs, Token.isElement_of_isStart hstart⟩

/-- **The start tags of an editable document are laid out and can be edited.** -/
theorem Editable.exists_ready {s : Segment} (hs : s ∈ (scan t).segments)
    (hstart : s.token.isStart = true) :
    ∃ st selfClosing, s.token.IsTag [] st selfClosing ∧ st.Ready := by
  have hmem : s.token ∈ startTokens t := by
    rw [Markup.startTokens_eq]
    exact List.mem_filter.mpr ⟨List.mem_map_of_mem hs, hstart⟩
  have hcut := ((Scan.divides_scanFrom 0 0 t).isCut s hs).token
  obtain ⟨w, rfl, hw, htags⟩ := h.exists_markup hdoctype hparse
  have htext := List.mem_map_of_mem hmem (f := Token.text)
  rw [hw.texts_startTokens Dialect.standard, List.mem_map] at htext
  obtain ⟨site, hsite, htext⟩ := htext
  have hevent := Markup.mem_events_of_mem_sites hsite
  obtain ⟨st, hcontent, hst⟩ := h.ready hw rfl htags _ _ hevent
  rw [← hcontent, StartTag.source_start] at htext
  have hlaid : st.Laid [] := hst.listed.tidy.laid hst.backslash fun _ _ => nofun
  have hnamed : st.name ≠ [] := by
    have hname := (h.tidyText.isName_of_mem_events htags hevent).1
    rw [← hcontent, hst.elementOf_fst] at hname
    exact ne_nil_of_isXmlName hname
  refine ⟨st, site.element.1, ⟨hlaid, hnamed, ?_, htext.symm⟩, hst⟩
  -- A text is cut off as one kind of token only.
  obtain ⟨body, hbody, hcutToken⟩ := hcut
  have hcontentNe : st.content ≠ [] := fun hnil => hnamed (List.append_eq_nil_iff.mp hnil).1
  rw [← htext, StartTag.text] at hbody
  rw [← (List.cons.inj hbody).2, hlaid.cutToken_text, hlaid.ofElement_text fun _ => hcontentNe]
    at hcutToken
  exact (congrArg Prod.fst (Option.some.inj hcutToken)).symm

include hsilent

/-- **They are laid out for every word that their values do not mention.** -/
theorem Editable.exists_isTag {s : Segment} (hs : s ∈ (scan t).segments)
    (hstart : s.token.isStart = true) :
    ∃ st selfClosing, s.token.IsTag (d.words s.token) st selfClosing := by
  obtain ⟨st, selfClosing, htag, hst⟩ := h.exists_ready hdoctype hparse hs hstart
  have hmem : s.token ∈ startTokens t := by
    rw [Markup.startTokens_eq]
    exact List.mem_filter.mpr ⟨List.mem_map_of_mem hs, hstart⟩
  have hwords := hsilent s.token hmem
  rw [htag.pieces_eq] at hwords
  have hlaid : st.Laid (d.words s.token) :=
    hst.listed.tidy.laid hst.backslash fun p hp word hword =>
      (avoids_of_containsWord (Dialect.isWord_of_mem_words hword).chars
        (hwords p hp word hword)).spares
  exact ⟨st, selfClosing, hlaid, htag.named, htag.kind, htag.text⟩

theorem framedText_renameState {new : Text} (hnew : isStateName new = true) (old : Text) :
    FramedText d [old, new] t (renameState d old new t).text := by
  refine framedText_editRoot false (fun _ _ => True) (fun p hp => ?_) trivial
    (h.exists_element hdoctype hparse) (fun _ _ => rfl) ?_
  · have hmem := Segment.mem_of_mem_located hp
    exact frames_rename ((Scan.divides_scanFrom 0 0 t).isCut p.2 hmem).token
      (h.exists_isTag hdoctype hparse hsilent hmem) hnew old
  · intro s hs st st' selfClosing hst hreworked token htoken tag hedit
    rw [htoken.text] at hedit
    have hmem : Word.states ∈ d.words s.token := d.subset_words s.token (by simp)
    obtain ⟨st'', hrevalued, heq⟩ :=
      StartTag.revalues_rename (fun _ => Dialect.isWord_of_mem_words) hmem
        (Dialect.spares_of_mem_words hmem [old, new]) hnew old st' selfClosing tag htoken.laid hedit
    exact ⟨st'', heq, hrevalued.toReworked⟩

theorem framedText_createState {state : Text} {allStates : List Text} {model : Option Text}
    (hstates : ∀ s ∈ state :: allStates, isStateName s = true)
    (hsolid : ∀ p ∈ Segment.located [] (scan t).segments, p.2.token.isStart = true →
      p.1.length = 1 ∨ model = none ∧ allStates ≠ [] ∧
        d.isScoped (d.standing p.1.tail) p.2.token.name = true →
      p.2.token.pieces = [] → p.2.token.name.getLast? ≠ some '\u1680') :
    FramedText d [state] t (createState d allStates state model t).text := by
  obtain ⟨hstate, hstates⟩ := List.forall_mem_cons.mp hstates
  have hcut : ∀ p ∈ Segment.located [] (scan t).segments, p.2.token.IsCut := fun p hp =>
    ((Scan.divides_scanFrom 0 0 t).isCut p.2 (Segment.mem_of_mem_located hp)).token
  have htag : ∀ p ∈ Segment.located [] (scan t).segments, p.2.token.isStart = true →
      ∃ st selfClosing, p.2.token.IsTag (d.words p.2.token) st selfClosing := fun p hp =>
    h.exists_isTag hdoctype hparse hsilent (Segment.mem_of_mem_located hp)
  have hend : ∀ p ∈ Segment.located [] (scan t).segments, (p.1.length = 1 ∨ model = none ∧
      allStates ≠ [] ∧ d.isScoped (d.standing p.1.tail) p.2.token.name = true) →
      ∀ st selfClosing, p.2.token.IsTag (d.words p.2.token) st selfClosing → st.pieces = [] →
        st.Solid := by
    intro p hp hplace st selfClosing hst hnil
    have hlast := hsolid p hp hst.isStart hplace (hst.pieces_eq.trans hnil)
    rw [hst.name_eq] at hlast
    exact StartTag.solid_of_getLast? hst.laid.name hlast
  have hroot : ∀ s, ([s.token.name], s) ∈ Segment.located [] (scan t).segments →
      ∀ st st' selfClosing, s.token.IsTag (d.words s.token) st selfClosing →
        StartTag.Reworked (d.words s.token) (d.spares [state] s.token) st st' →
        ∀ token, token.IsTag (d.words s.token) st' selfClosing →
        ∀ tag, some (declaredTag state token) = some tag →
          ∃ st'', tag = st''.text selfClosing ∧
            StartTag.Reworked (d.words s.token) (d.spares [state] s.token) st' st'' := by
    rintro s hs st st' selfClosing hst hreworked token htoken tag ⟨⟩
    refine exists_declaredTag htoken (fun _ => Dialect.isWord_of_mem_words)
      (d.subset_words s.token (by simp))
      (Dialect.spares_of_mem_words (d.subset_words s.token (by simp)) _) hstate fun hnil => ?_
    have hsolidName := hend _ hs (Or.inl rfl) st selfClosing hst (hreworked.bare hnil)
    rw [StartTag.Solid, hreworked.name]
    exact hsolidName
  have hany := h.exists_element hdoctype hparse
  have hdeclare := declareState_text state
  cases model with
  | none =>
    refine (congrArg (FramedText d [state] t) (hdeclare _)).mpr (framedText_editRoot [] _
      (fun p hp => frames_blank (hcut p hp) (htag p hp) hstate hstates fun hne hscoped =>
        hend p hp (Or.inr ⟨rfl, hne, hscoped⟩)) rfl hany (fun _ _ => rfl) hroot)
  | some model =>
    refine (congrArg (FramedText d [state] t) (hdeclare _)).mpr (framedText_editRoot ()
      (fun _ _ => True) (fun p hp => frames_copy (hcut p hp) (htag p hp) hstate model) trivial hany
      (fun _ _ => rfl) hroot)

end

/-- **Edits of states keep the frame of a document.** The values mention no attribute
that the edits look up, and a tag to which creating a state may give its first
attribute ends in no blank: that is the root's, and for a blank state a scoped one. -/
theorem framed_of_stateEdit {t : Text} {root : Tag} {d : Dialect} (h : Editable t root)
    (hdoctype : NoDoctype t) (hparse : parseStrict t = .ok root)
    (hsilent : ∀ token ∈ startTokens t, ∀ p ∈ token.pieces, ∀ word ∈ d.words token,
      containsWord word p.value = false) :
    (∀ (allStates : List Text) (state : Text) (model : Option Text),
      (∀ s ∈ state :: allStates, isStateName s = true) →
      (∀ p ∈ Segment.located [] (scan t).segments, p.2.token.isStart = true →
        p.1.length = 1 ∨ model = none ∧ allStates ≠ [] ∧
          d.isScoped (d.standing p.1.tail) p.2.token.name = true →
        p.2.token.pieces = [] → p.2.token.name.getLast? ≠ some '\u1680') →
      FramedText d [state] t (createState d allStates state model t).text) ∧
    ∀ old new : Text, isStateName new = true →
      FramedText d [old, new] t (renameState d old new t).text :=
  ⟨fun _ _ _ hstates hsolid => framedText_createState h hdoctype hparse hsilent hstates hsolid,
    fun old _ hnew => framedText_renameState h hdoctype hparse hsilent hnew old⟩

/-- A comment that looks like a tag, a declared state, a list and an attribute with it,
and a block of declarations. -/
theorem framed_of_stateEdit_up :
    let t := "<e:Skin states='up'><!--<a x.up='1'>--><State name='up'/>
      <Rect includeIn='up' y.up='1' z='2'/><Declarations y.up='1'/></e:Skin>".toList
    let up := ['u', 'p']
    let held := ['h', 'e', 'l', 'd']
    let d := Dialect.standard
    ∃ root, (Editable t root ∧ NoDoctype t ∧ parseStrict t = .ok root ∧
        (∀ token ∈ startTokens t, ∀ p ∈ token.pieces, ∀ word ∈ d.words token,
          containsWord word p.value = false) ∧
        (∀ s ∈ [held, up], isStateName s = true) ∧
        ∀ p ∈ Segment.located [] (scan t).segments, p.2.token.pieces = [] →
          p.2.token.name.getLast? ≠ some '\u1680') ∧
      FramedText d [held] t (createState d [up] held none t).text ∧
      FramedText d [held] t (createState d [up] held (some up) t).text ∧
      FramedText d [up, held] t (renameState d up held t).text := by
  intro t up held d
  have hstates : ∀ s ∈ [held, up], isStateName s = true := by decide
  have hany : ((parseStrict t).toOption.any fun root => decide (Editable t root) &&
      decide (NoDoctype t)) = true := by
    decide +kernel
  have hsilent : ∀ token ∈ startTokens t, ∀ p ∈ token.pieces, ∀ word ∈ d.words token,
      containsWord word p.value = false := by
    decide +kernel
  have hsolid : ∀ p ∈ Segment.located [] (scan t).segments, p.2.token.pieces = [] →
      p.2.token.name.getLast? ≠ some '\u1680' := by
    decide +kernel
  obtain ⟨root, hparse, hproperties⟩ := exists_of_any_toOption hany
  simp only [Bool.and_eq_true, decide_eq_true_eq] at hproperties
  obtain ⟨heditable, hdoctype⟩ := hproperties
  obtain ⟨hcreate, hrename⟩ := framed_of_stateEdit heditable hdoctype hparse hsilent
  exact ⟨root, ⟨heditable, hdoctype, hparse, hsilent, hstates, hsolid⟩,
    hcreate [up] held none hstates fun p hp _ _ => hsolid p hp,
    hcreate [up] held (some up) hstates fun p hp _ _ => hsolid p hp,
    hrename up held (hstates held (by simp))⟩

/-- A new list goes in front of the blank that ends a name, and a document type
declaration in lower case can hide tags that are no tags to a reader: a value that is
copied from there ends one too early. -/
theorem not_framed_of_createState :
    let d := Dialect.standard
    let blank := "<r\u1680/>".toList
    let hidden := "<!doctype x <<b><c x.a=b\"c d\"/>>><r/>".toList
    ∀ t ∈ [blank, hidden], ∃ root, Editable t root ∧ containsWord "<!DOCTYPE".toList t = false ∧
      parseStrict t = .ok root ∧
      (∀ token ∈ startTokens t, ∀ p ∈ token.pieces, ∀ word ∈ d.words token,
        containsWord word p.value = false) ∧
      (∀ s ∈ [['q'], ['a']], isStateName s = true) ∧
      (scan (createState d [['a']] ['q'] (some ['a']) t).text).segments.map (·.token.name) ≠
        (scan t).segments.map (·.token.name) := by
  intro d blank hidden
  have hall : ∀ t ∈ [blank, hidden],
      ((parseStrict t).toOption.any fun root => decide (Editable t root)) = true ∧
      containsWord "<!DOCTYPE".toList t = false ∧
      (∀ token ∈ startTokens t, ∀ p ∈ token.pieces, ∀ word ∈ d.words token,
        containsWord word p.value = false) ∧
      (scan (createState d [['a']] ['q'] (some ['a']) t).text).segments.map (·.token.name) ≠
        (scan t).segments.map (·.token.name) := by
    decide +kernel
  intro t ht
  obtain ⟨hany, hdoctype, hsilent, hne⟩ := hall t ht
  obtain ⟨root, hparse, heditable⟩ := exists_of_any_toOption hany
  exact ⟨root, of_decide_eq_true heditable, hdoctype, hparse, hsilent, by decide, hne⟩

end SkinMarkup
