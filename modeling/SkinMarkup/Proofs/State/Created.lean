import SkinMarkup.Proofs.State.Suitable

/-!
# Documents with one more state

Creating a state in a document gives some start tags another content and erases nothing,
whether the state is blank or a copy and whether or not its name is in the document
already. Each tag keeps its name and the attributes that have nothing to do with the state
(`StartTag.Touched`), and the root lists the state: `Markup.Document.exists_created`. The
names of the other states need not be plain: they are what a document declares.
-/

namespace SkinMarkup

/-- A text that can be written between double quotes and read again. -/
def Quotable (value : Text) : Prop :=
  '"' ∉ value ∧ Unescapable value

theorem quotable_render {states : List Text} (h : ∀ s ∈ states, isStateName s = true) :
    Quotable (StateList.render states) := by
  refine ⟨fun hmem => ?_, unescapable_render fun s hs => unescapable_of_isStateName (h s hs)⟩
  obtain ⟨s, hs, hquote⟩ := StateList.mem_render hmem (by decide)
  exact not_mem_of_isStateName (h s hs) (by decide) hquote

/-- The start tags of the components in a text that are in all states. -/
def Dialect.unscopedTags (d : Dialect) (t : Text) : List Token :=
  ((d.outerTags t).filter fun p => d.isScoped (d.standing p.1.tail) p.2.name &&
    (ValueSlot.find? Word.includeIn p.2.text).isNone &&
    (ValueSlot.find? Word.excludeFrom p.2.text).isNone).map Prod.snd

namespace StartTag

variable {t t' : StartTag} {words allStates : List Text} {state : Text}

/-- A start tag that can be read, in the place of one that differs in what concerns a
state only. -/
structure Touched (state : Text) (t t' : StartTag) : Prop where
  valid : t'.Valid
  name : t'.name = t.name
  unconcerned : t'.unconcerned state = t.unconcerned state

theorem Valid.touched (h : t.Valid) (state : Text) : Touched state t t :=
  ⟨h, rfl, rfl⟩

theorem spared_unconcerned (state : Text) :
    Spared [Word.includeIn, Word.excludeFrom] [state] fun name => !Word.concerns state name where
  words := by
    intro word hword
    have hlists : [Word.includeIn, Word.excludeFrom] ⊆ Word.lists := by simp [Word.lists]
    rw [Word.concerns_of_mem (hlists hword) state, Bool.not_true]
  stems := by
    intro other hother stem hne
    rw [List.mem_singleton.mp hother, Word.concerns_append hne, Bool.not_true]

theorem Reworked.touched (h : Reworked words (fun name => !Word.concerns state name) t t')
    (ht : t'.Sound) : Touched state t t' :=
  ⟨ht.toValid, h.name, h.frame⟩

/-- **A component that is scoped out,** or stays if there is nothing to say. The list that
it may get can be read, whatever the names of the states are. -/
theorem Sound.exists_touched_scoped (h : t.Sound) (hlaid : t.Laid [Word.excludeFrom])
    (hroom : allStates ≠ [] → t.Receives Word.includeIn) (hstate : isStateName state = true)
    {selfClosing : Bool}
    (hlist : ValueSlot.find? Word.includeIn (t.text selfClosing) = none →
      ValueSlot.find? Word.excludeFrom (t.text selfClosing) = none →
        Quotable (StateList.render allStates)) :
    ∃ t', Touched state t t' ∧
      editOr (scopeOut (.ofStart selfClosing) allStates state) (t.text selfClosing) =
        t'.text selfClosing := by
  rw [editOr]
  cases hscope : scopeOut (.ofStart selfClosing) allStates state (t.text selfClosing) with
  | none => exact ⟨t, h.toValid.touched state, rfl⟩
  | some tag =>
    have hcases : (∃ t', Revalued [Word.excludeFrom] (fun name => !Word.concerns state name) t t' ∧
        _) ∨ _ :=
      hlaid.scopeOut_cases (List.forall_mem_singleton.mpr isWord_excludeFrom) List.mem_cons_self
        ((spared_unconcerned state).words _ (by simp)) hstate hscope
    rcases hcases with ⟨t', hrevalued, rfl⟩ | ⟨hinclude, hexclude, hne, rfl⟩
    · exact ⟨t', hrevalued.toReworked.touched (hrevalued.sound_of_sound h), rfl⟩
    · obtain ⟨hquote, hreadable⟩ := hlist hinclude hexclude
      have hreceives := hroom hne
      refine ⟨t.append [.usual Word.includeIn (StateList.render allStates)], ⟨?_, rfl, ?_⟩,
        hlaid.insertAttribute_text hreceives.solid _ _ selfClosing⟩
      · have hword := isWord_includeIn
        refine h.toValid.of_pieces (List.forall_mem_append.mpr ⟨fun p hp => (h.piece hp).toValid,
          List.forall_mem_singleton.mpr ⟨?_, hword.chars, List.cons_ne_nil _ _, hreadable⟩⟩) ?_
        · exact WrittenPiece.regular_usual (isSafeName_of_nameChars hword.nonempty hword.chars) hquote
        · rw [List.map_append]
          exact List.nodup_append_comm.mp (List.nodup_cons.mpr
            ⟨hreceives.not_mem h.tidy.toSpaced hinclude, h.tidy.regular.nodup⟩)
      · exact unconcerned_append (List.forall_mem_singleton.mpr
          (Word.concerns_of_mem List.mem_cons_self state))

end StartTag

namespace Markup

variable {w w' : Markup} {d : Dialect} {root : Tag} {state : Text} {allStates : List Text}
  {selfClosing : Bool} {st : StartTag} {content content' content'' : Text}

/-- The content of a start tag before and after an edit that concerns a state. -/
def Touches (state : Text) (_ : Bool) (content content' : Text) : Prop :=
  ∃ st st' : StartTag, st.content = content ∧ st'.content = content' ∧ st.Valid ∧
    StartTag.Touched state st st'

theorem Touches.substitutes (h : Touches state selfClosing content content') :
    Substitutes selfClosing content content' := by
  obtain ⟨st, st', rfl, rfl, hst, htouched⟩ := h
  exact htouched.valid.substitutes hst.tidy.regular htouched.name selfClosing

theorem Touches.trans (h : Touches state selfClosing content content')
    (h' : Touches state selfClosing content' content'') :
    Touches state selfClosing content content'' := by
  obtain ⟨st, st', rfl, rfl, hst, htouched⟩ := h
  obtain ⟨st₁, st₂, hcontent, rfl, hst₁, htouched'⟩ := h'
  obtain rfl := hst₁.content_injective htouched.valid hcontent
  exact ⟨st, st₂, rfl, rfl, hst, htouched'.valid, htouched'.name.trans htouched.name,
    htouched'.unconcerned.trans htouched.unconcerned⟩

/-! ## The root -/

/-- **Declaring a state in the text of markup declares it on the first start tag.** What
follows does not matter. -/
theorem Opens.exists_declareState {kept : Text → Bool} (hopens : w.Opens) (hlexed : w.Lexed)
    (hst : st.Sound) (hfirst : w.first? = some (selfClosing, st.content))
    (hreceives : st.Receives Word.states) (hkept : kept Word.states = false)
    (hstate : isStateName state = true) :
    ∃ st', StartTag.Reworked [Word.states] kept st st' ∧ st'.Sound ∧
      st'.value? Word.states = some (StartTag.declaredValue state (st.value? Word.states)) ∧
      declareState state w.source = ⟨(w.setFirst st'.content).source, true⟩ := by
  obtain ⟨st', hreworked, hst', hvalue, htext⟩ :
      ∃ st', StartTag.Reworked [Word.states] kept st st' ∧ _ ∧ _ ∧
        declaredTag state (.ofStart selfClosing st.content) = st'.text selfClosing :=
    hst.exists_declared hreceives hkept hstate rfl (StartTag.source_start selfClosing st)
  refine ⟨st', hreworked, hst', hvalue, ?_⟩
  rw [declareState_eq, editRoot_source hlexed hopens hfirst (some st'.content) fun token htoken => ?_]
  · rfl
  · rw [Option.map_some, StartTag.source_start, ← htext, declaredTag, declaredTag, htoken.kind,
      htoken.text]
    rfl

/-- The root is no component. -/
theorem first?_blankEdit (hfirst : w.first? = some (selfClosing, st.content)) (d : Dialect)
    (allStates : List Text) (state : Text) :
    (w.rewriteAt (editedContent d (blankEdit d allStates state)) []).first? =
      some (selfClosing, st.content) := by
  rw [first?_rewriteAt hfirst, editedContent]
  split
  · rfl
  · exact congrArg (fun content => some (selfClosing, content))
      (contentOf_source selfClosing st.content)

/-! ## Documents -/

/-- **The text of a document after an edit that concerns a state is a document.** -/
theorem Document.exists_parseStrict_of_touches (h : w.Document)
    (hrewritten : Rewritten (Touches state) w w') :
    ∃ root', parseStrict w'.source = .ok root' ∧ w'.tags [] = [root'.bare] := by
  have hsubstitutes : Rewritten Substitutes w w' := hrewritten.imp fun _ _ _ => Touches.substitutes
  have hlexed := hsubstitutes.lexed h.lexed
  have hsingle := hsubstitutes.single h.single
  exact exists_parseStrict_of_markup (hsingle.head?_source hlexed) hlexed
    (hsubstitutes.readable h.readable) hsingle

section

variable (h : w.Document) (htidy : TidyText w.source root) (htags : w.tags [] = [root.bare])
  (hfirst : w.first? = some (selfClosing, st.content)) (hst : st.Sound)
  (hstate : isStateName state = true)

include h htidy htags hfirst hst hstate

/-- The root after a state was copied has the list of states that it had. -/
theorem Document.exists_first_copyTag {model : Text} (hreceives : st.Receives Word.states)
    (hspares : ∀ p ∈ d.outerTags w.source, p.2.Spares (StateEdit.copyWords model)) :
    ∃ st₁ : StartTag, st₁.Sound ∧ st₁.name = st.name ∧ st₁.Receives Word.states ∧
      st₁.value? Word.states = st.value? Word.states ∧ (w.rewriteAt (editedContent d fun _
        token => copyTag token.kind model state token.text) []).first? =
          some (selfClosing, st₁.content) := by
  rw [first?_rewriteAt hfirst, editedContent]
  split
  · exact ⟨st, hst, rfl, hreceives, rfl, rfl⟩
  · next hnames =>
    obtain ⟨token, hmem, htag⟩ :=
      h.exists_rootTag htidy htags hfirst hst (Bool.eq_false_iff.mpr hnames)
    have hlaid : st.Laid (Word.states :: StateEdit.copyWords model) :=
      ((hspares _ hmem).laid htag hst).cons hreceives.spares
    obtain ⟨st₁, hreworked, hst₁, htext⟩ := hst.exists_copied
      (List.forall_mem_cons.mpr ⟨isWord_states, StateEdit.isWord_of_mem_copyWords⟩) hlaid
      (StartTag.spared_states [state]) (List.mem_cons_of_mem _ (StateEdit.mem_copyWords model))
      (fun hne => List.mem_cons_of_mem _ (StateEdit.mem_copyWords_of_ne hne)) hstate selfClosing
    have hsupersedes := hreworked.supersedes (by decide) hst₁
    refine ⟨st₁, hst₁, hreworked.name,
      hsupersedes.receives hreworked.bare List.mem_cons_self hreceives,
      hreworked.value?_eq (by decide), ?_⟩
    rw [← contentOf_source selfClosing st₁.content, StartTag.source_start, ← htext,
      ← StartTag.source_start]
    rfl

/-- **The start tags are edited for a new state.** The root keeps its list. -/
theorem Document.exists_touched {model : Option Text} (hreceives : st.Receives Word.states)
    (hsuits : (StateEdit.create allStates state model).Suits d w.source)
    (hlist : model = none → d.unscopedTags w.source ≠ [] →
      Quotable (StateList.render allStates)) :
    ∃ (w₁ : Markup) (st₁ : StartTag), Rewritten (Touches state) w w₁ ∧
      createState d allStates state model w.source = declareState state w₁.source ∧
      w₁.first? = some (selfClosing, st₁.content) ∧ st₁.Sound ∧ st₁.name = st.name ∧
      st₁.Receives Word.states ∧ st₁.value? Word.states = st.value? Word.states := by
  have hkeep : ∀ (st : StartTag) selfClosing, st.Sound →
      Touches state selfClosing st.content st.content := fun st _ hst =>
    ⟨st, st, rfl, rfl, hst.toValid, hst.toValid.touched state⟩
  cases model with
  | none =>
    obtain ⟨-, hscoped⟩ := hsuits
    obtain ⟨hrevise, hrewritten⟩ : _ ∧ Rewritten (Touches state) w _ :=
      h.exists_edited htidy htags (edits_blank d allStates state) (rfl : [] = d.flags [])
        (fun _ _ => rfl) hkeep fun p hp st selfClosing hst htag => by
          rw [blankEdit]
          split
          · next hscope =>
            obtain ⟨hspares, hroom⟩ := hscoped p hp hscope
            rw [htag.kind, htag.text]
            obtain ⟨st', htouched, htext⟩ := hst.exists_touched_scoped (hspares.laid htag hst)
              (fun hne => (hroom hne).startTag htag hst) hstate fun hinclude hexclude =>
                hlist rfl (List.ne_nil_of_mem (List.mem_map_of_mem (List.mem_filter.mpr
                  ⟨hp, by rw [hscope, htag.text, hinclude, hexclude]; rfl⟩)))
            exact ⟨st', ⟨st, st', rfl, rfl, hst.toValid, htouched⟩, htext⟩
          · exact ⟨st, hkeep st selfClosing hst, htag.text⟩
    refine ⟨_, st, hrewritten, ?_, first?_blankEdit hfirst d allStates state, hst, rfl,
      hreceives, rfl⟩
    rw [createState, hrevise]
    rfl
  | some model =>
    obtain ⟨-, hspares⟩ := hsuits
    obtain ⟨hrevise, hrewritten⟩ : _ ∧ Rewritten (Touches state) w _ :=
      h.exists_edited htidy htags (edits_copy d model state) trivial (fun _ _ => rfl) hkeep
        fun p hp st selfClosing hst htag => by
          obtain ⟨st', hreworked, hst', htext⟩ := hst.exists_copied
            StateEdit.isWord_of_mem_copyWords ((hspares p hp).laid htag hst)
            (StartTag.spared_unconcerned state) (StateEdit.mem_copyWords model)
            StateEdit.mem_copyWords_of_ne hstate selfClosing
          exact ⟨st', ⟨st, st', rfl, rfl, hst.toValid, hreworked.touched hst'⟩,
            by rw [htag.kind, htag.text, htext]⟩
    obtain ⟨st₁, hst₁, hname₁, hreceives₁, hvalue, hfirst₁⟩ :=
      h.exists_first_copyTag htidy htags hfirst hst hstate hreceives hspares
    refine ⟨_, st₁, hrewritten, ?_, hfirst₁, hst₁, hname₁, hreceives₁, hvalue⟩
    rw [createState, hrevise]
    rfl

/-- **Creating a state gives a document with the same elements,** the root of which lists
the state. -/
theorem Document.exists_created {model : Option Text} (hreceives : st.Receives Word.states)
    (hsuits : (StateEdit.create allStates state model).Suits d w.source)
    (hlist : model = none → d.unscopedTags w.source ≠ [] →
      Quotable (StateList.render allStates)) :
    ∃ (w' : Markup) (st' : StartTag),
      createState d allStates state model w.source = ⟨w'.source, true⟩ ∧
      Rewritten (Touches state) w w' ∧ w'.first? = some (selfClosing, st'.content) ∧ st'.Sound ∧
      st'.name = st.name ∧
      st'.value? Word.states = some (StartTag.declaredValue state (st.value? Word.states)) := by
  obtain ⟨w₁, st₁, hrewritten, hcreate, hfirst₁, hst₁, hname₁, hreceives₁, hvalue₁⟩ :=
    h.exists_touched htidy htags hfirst hst hstate hreceives hsuits hlist
  obtain ⟨content₁, hfirst', htouches⟩ := hrewritten.exists_first hfirst
  obtain rfl : st₁.content = content₁ :=
    congrArg Prod.snd (Option.some.inj (hfirst₁.symm.trans hfirst'))
  -- The list of states stands in a scannable tag, whatever stands behind it.
  have hsubstitutes : Rewritten Substitutes w w₁ := hrewritten.imp fun _ _ _ => Touches.substitutes
  have hopens : w₁.Opens := hrewritten.opens h.scannable.opens hfirst₁
    (htouches.substitutes.whole.scannable_start hst₁.backslash)
  have hstates : (!Word.concerns state Word.states) = false := by
    rw [Word.concerns_of_mem (by decide), Bool.not_true]
  obtain ⟨st', hreworked, hst', hvalue', hdeclare⟩ : ∃ st',
      StartTag.Reworked [Word.states] (fun name => !Word.concerns state name) st₁ st' ∧ _ ∧ _ ∧ _ :=
    hopens.exists_declareState (hsubstitutes.lexed h.lexed) hst₁ hfirst₁ hreceives₁ hstates hstate
  have hlast : Touches state selfClosing st.content st'.content := htouches.trans
    ⟨st₁, st', rfl, rfl, hst₁.toValid, hreworked.touched hst'⟩
  exact ⟨_, st', hcreate.trans hdeclare, hrewritten.setFirst hfirst hlast,
    first?_setFirst hfirst₁ _, hst', hreworked.name.trans hname₁, by rw [hvalue', hvalue₁]⟩

end

end Markup

end SkinMarkup
