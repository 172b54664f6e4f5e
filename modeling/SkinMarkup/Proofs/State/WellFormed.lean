import SkinMarkup.Proofs.State.Created

/-!
# State edits keep documents

A state is created, removed or renamed, or a document gets another state to start in.
Each of these edits makes a document of a document, with a root of the same name, if it
suits the document (`wellFormed_of_run`). The names in the edit may be in the document
already.
-/

namespace SkinMarkup

/-! ## Actions on sound tags -/

/-- The tag of a root whose list loses a state. -/
def undeclaredTag? (state tag : Text) : Option Text := do
  let slot ← ValueSlot.find? Word.states tag
  if (StateList.entries slot.value).contains state then some (StateList.drop slot state) else none

theorem undeclareState_eq (state t : Text) : undeclareState state t =
    ⟨(editRoot (fun root => undeclaredTag? state root.text) t).getD t, true⟩ :=
  rfl

theorem isWord_of_lists : ∀ word ∈ [Word.includeIn, Word.excludeFrom], IsWord word :=
  List.forall_mem_cons.mpr ⟨isWord_includeIn, List.forall_mem_singleton.mpr isWord_excludeFrom⟩

namespace StartTag

variable {words allStates : List Text} {st : StartTag} {d : Dialect} {old new state : Text}
  {met selfClosing : Bool} (hwords : ∀ word ∈ words, IsWord word) (h : st.Sound)
  (hlaid : st.Laid words) (hinclude : Word.includeIn ∈ words) (hexclude : Word.excludeFrom ∈ words)
  (hblock : (Token.ofStart selfClosing st.content).localName ≠ d.declarations)

include hwords h hlaid hinclude hexclude hblock

/-- Renaming a state writes sound tags. -/
theorem Sound.exists_renameAction (hold : isStateName old = true) (hnew : isStateName new = true)
    (hlabels : st.Relabelable old new) :
    ∃ st' : StartTag, st'.Sound ∧ st'.Laid words ∧ st'.name = st.name ∧
      (renameAction d old new met (.ofStart selfClosing st.content)).2 =
        .replace (Event.start selfClosing st'.content).source := by
  obtain ⟨met', tag, haction, hcases⟩ :=
    renameAction_of_isStart_cases (isStart_ofStart selfClosing st.content) hblock
  have htext : (Token.ofStart selfClosing st.content).text = st.text selfClosing :=
    source_start selfClosing st
  rw [htext] at hcases
  obtain ⟨st', hst', hlaid', hname, rfl⟩ := h.exists_renamed hwords hlaid hinclude hexclude hold hnew
    hlabels (hcases.imp_left And.right)
  exact ⟨st', hst', hlaid', hname, by rw [haction, source_start]⟩

/-- Removing a state writes sound tags or erases elements. -/
theorem Sound.removeAction_cases
    (hyields : st.Yields Word.excludeFrom fun p => StateList.entries p.value = [state]) :
    (removeAction d state allStates met (.ofStart selfClosing st.content)).2 = .erase ∨
      ∃ st', Supersedes words st st' ∧
        (removeAction d state allStates met (.ofStart selfClosing st.content)).2 =
          .replace (Event.start selfClosing st'.content).source := by
  have htext : (Token.ofStart selfClosing st.content).text = st.text selfClosing :=
    source_start selfClosing st
  refine (removeAction_of_isStart_cases d state allStates met
    (isStart_ofStart selfClosing st.content) hblock).imp_right ?_
  rintro ⟨tag, hremove, hreplace⟩
  rw [htext] at hremove
  obtain ⟨st', hst', rfl⟩ := h.exists_removed hwords hlaid hinclude hexclude hyields hremove
  exact ⟨st', hst', by rw [hreplace, source_start]⟩

end StartTag

/-! ## Documents that edits make -/

namespace Markup

variable {w : Markup} {d : Dialect} {root : Tag} {name state old new : Text} {allStates : List Text}
  {selfClosing : Bool} {st st₁ : StartTag} {content : Text}

/-- A text that can be parsed, with a root of the given name. -/
def Remade (name text : Text) : Prop :=
  ∃ root, parseStrict text = .ok root ∧ root.name = name

section

variable (h : w.Document) (hfirst : w.first? = some (selfClosing, st₁.content)) (hst₁ : st₁.Sound)

include h hfirst hst₁

theorem Document.remade : Remade st₁.name w.source := by
  obtain ⟨root, hparse, htags⟩ := h.exists_parseStrict
  exact ⟨root, hparse, (entries_of_first hfirst htags hst₁).1⟩

theorem Document.remade_setFirst {st₂ : StartTag} (hst₂ : st₂.Sound) (hname₂ : st₂.name = st₁.name) :
    Remade st₁.name (w.setFirst st₂.content).source := by
  rw [← hname₂]
  exact (h.setFirst hfirst (hst₂.replaces hst₁.tidy.regular hname₂ selfClosing)).remade
    (first?_setFirst hfirst _) hst₂

/-- An edit of the root's tag that makes a sound tag of it, or leaves it alone. -/
theorem Document.remade_editRoot {edit : Text → Option Text}
    (hedit : ∀ tag, edit (st₁.text selfClosing) = some tag →
      ∃ st₂ : StartTag, st₂.Sound ∧ st₂.name = st₁.name ∧ tag = st₂.text selfClosing) :
    Remade st₁.name ((editRoot (fun root => edit root.text) w.source).getD w.source) := by
  have hroot : ∀ {token : Token},
      IsToken token (.ofStart selfClosing) (.start selfClosing st₁.content) →
        edit token.text = edit (st₁.text selfClosing) := fun htoken => by
    rw [htoken.text, StartTag.source_start]
  cases hsome : edit (st₁.text selfClosing) with
  | none =>
    rw [editRoot_source h.lexed h.scannable.opens hfirst none fun token htoken => (hroot htoken).trans hsome]
    exact h.remade hfirst hst₁
  | some tag =>
    obtain ⟨st₂, hst₂, hname₂, rfl⟩ := hedit tag hsome
    rw [editRoot_source h.lexed h.scannable.opens hfirst (some st₂.content) fun token htoken => by
      rw [hroot htoken, hsome, Option.map_some, StartTag.source_start]]
    exact h.remade_setFirst hfirst hst₁ hst₂ hname₂

theorem Document.remade_setStartState {state : Option Text}
    (hstate : ∀ s ∈ activeState state, isStateName s = true)
    (hreceives : activeState state ≠ none → st₁.Receives Word.currentState)
    (hyields : activeState state = none →
      st₁.Yields Word.currentState fun p => st₁.pieces.head? = some p) :
    (setStartState state w.source).complete = true ∧
      Remade st₁.name (setStartState state w.source).text := by
  obtain ⟨st₂, hst₂, hname₂, htext⟩ := hst₁.exists_started hstate hreceives hyields selfClosing
  rw [setStartState, editRoot_source h.lexed h.scannable.opens hfirst (some st₂.content)
    fun token htoken => ?_]
  · exact ⟨rfl, h.remade_setFirst hfirst hst₁ hst₂ hname₂⟩
  · rw [Option.map_some, StartTag.source_start, ← htext, htoken.kind, htoken.text,
      StartTag.source_start]

end

section

variable (h : w.Document) (htidy : TidyText w.source root) (htags : w.tags [] = [root.bare])
  (hfirst : w.first? = some (selfClosing, st.content)) (hst : st.Sound)

include h htidy htags hfirst hst

/-! ### Creating a state -/

theorem Document.remade_createState {model : Option Text} (hstate : isStateName state = true)
    (hstates : ∀ s ∈ allStates, isStateName s = true) (hreceives : st.Receives Word.states)
    (hsuits : (StateEdit.create allStates state model).Suits d w.source) :
    (createState d allStates state model w.source).complete = true ∧
      Remade st.name (createState d allStates state model w.source).text := by
  obtain ⟨w', st', hcreate, hrewritten, hfirst', hst', hname', -⟩ :=
    h.exists_created htidy htags hfirst hst hstate hreceives hsuits fun _ _ =>
      quotable_render hstates
  obtain ⟨root', hparse', htags'⟩ := h.exists_parseStrict_of_touches hrewritten
  rw [hcreate]
  exact ⟨rfl, root', hparse', (entries_of_first hfirst' htags' hst').1.trans hname'⟩

/-! ### Renaming and removing a state -/

omit htidy htags hst in
/-- A revision of sound tags makes a document, if the root is among what it passes over or
writes. -/
theorem Document.exists_revised {σ : Type} {act : σ → Token → σ × Action} {shut : Text → Bool}
    {memory : σ} (hrewrites : Rewrites shut act w)
    (hroot : (act memory (.ofStart selfClosing st.content)).2 = .pass ∧ content = st.content ∨
      (act memory (.ofStart selfClosing st.content)).2 =
        .replace (Event.start selfClosing content).source) :
    ∃ w₁ : Markup, reviseText act memory w.source = ⟨w₁.source, true⟩ ∧ w₁.Document ∧
      w₁.first? = some (selfClosing, content) := by
  obtain ⟨hstays, hcontent⟩ : (judgeOf act memory selfClosing st.content).2 ≠ .erase ∧
      (judgeOf act memory selfClosing st.content).2.content st.content = content := by
    rcases hroot with ⟨hpass, rfl⟩ | hreplace
    · rw [judgeOf, hpass]
      exact ⟨by simp [Action.verdict], rfl⟩
    · rw [judgeOf, hreplace, Action.verdict, contentOf_source]
      exact ⟨by simp, rfl⟩
  refine ⟨_, reviseText_source_outside h.lexed h.scannable hrewrites.follows memory,
    h.revise_outside hrewrites.careful fun selfClosing' content' hfirst' => ?_,
    hcontent ▸ first?_revise (judgeOf act) memory hfirst hstays []⟩
  cases hfirst.symm.trans hfirst'
  exact hstays

section

variable (hold : isStateName old = true) (hnew : isStateName new = true)
  (htagged : ∀ p ∈ d.outerTags w.source,
    p.2.Spares [Word.includeIn, Word.excludeFrom] ∧ p.2.Relabelable old new)

include hold hnew htagged

omit hfirst hst in
theorem Document.rewrites_rename : Rewrites d.shuts (renameAction d old new) w where
  others := fun _ _ hstart => renameAction_of_not_isStart hstart
  anywhere := fun _ _ _ => rfl
  pass := fun _ _ hshut => by
    rw [renameAction_of_declarations (by rfl) (of_decide_eq_true hshut)]
  starts := by
    intro met selfClosing content hexposed
    by_cases hblock : (Token.ofStart selfClosing content).localName = d.declarations
    · exact Or.inl (by rw [renameAction_of_declarations (isStart_ofStart selfClosing content) hblock])
    · obtain ⟨st, p, hmem, rfl, hst, htag⟩ := h.exists_exposedTag htidy htags hexposed hblock
      obtain ⟨hspares, hlabels⟩ := htagged _ hmem
      obtain ⟨st', hst', -, hname, hreplace⟩ := hst.exists_renameAction isWord_of_lists
        (hspares.laid htag hst) List.mem_cons_self (List.mem_cons_of_mem _ List.mem_cons_self) hblock
        hold hnew (hlabels.startTag htag)
      exact Or.inr (Or.inr ⟨st'.content, hreplace, hst'.replaces hst.tidy.regular hname selfClosing⟩)

theorem Document.remade_renameState (hspares : ∀ p ∈ st.pieces, Spares Word.states p.value) :
    (renameState d old new w.source).complete = true ∧
      Remade st.name (renameState d old new w.source).text := by
  obtain ⟨st₁, hst₁, hspares₁, hname₁, hroot⟩ : ∃ st₁ : StartTag, st₁.Sound ∧
      (∀ p ∈ st₁.pieces, Spares Word.states p.value) ∧ st₁.name = st.name ∧
      ((renameAction d old new false (.ofStart selfClosing st.content)).2 = .pass ∧
          st₁.content = st.content ∨
        (renameAction d old new false (.ofStart selfClosing st.content)).2 =
          .replace (Event.start selfClosing st₁.content).source) := by
    by_cases hblock : (Token.ofStart selfClosing st.content).localName = d.declarations
    · exact ⟨st, hst, hspares, rfl, Or.inl ⟨by
        rw [renameAction_of_declarations (isStart_ofStart selfClosing st.content) hblock], rfl⟩⟩
    · obtain ⟨token, hmem, htag⟩ := h.exists_rootTag htidy htags hfirst hst
        (Dialect.withholds_of_not_block hblock [])
      obtain ⟨hlists, hlabels⟩ := htagged _ hmem
      obtain ⟨st₁, hst₁, hlaid₁, hname₁, hreplace⟩ := hst.exists_renameAction
        (List.forall_mem_cons.mpr ⟨isWord_states, isWord_of_lists⟩)
        ((hlists.laid htag hst).cons hspares) (by simp) (by simp) hblock hold hnew
        (hlabels.startTag htag)
      exact ⟨st₁, hst₁, fun p hp => (hlaid₁.pieces p hp).spares _ List.mem_cons_self, hname₁,
        Or.inr hreplace⟩
  obtain ⟨w₁, hrevise, hw₁, hfirst₁⟩ :=
    h.exists_revised hfirst (h.rewrites_rename htidy htags hold hnew htagged) hroot
  rw [renameState, hrevise, Outcome.andThen, redeclareState, ← hname₁]
  exact ⟨rfl, hw₁.remade_editRoot hfirst₁ hst₁ fun tag hrename =>
    hst₁.exists_relisted (List.forall_mem_singleton.mpr isWord_states)
      (hst₁.laid_singleton hspares₁) List.mem_cons_self hnew hrename⟩

end

section

variable (htagged : ∀ p ∈ d.outerTags w.source,
  p.2.Spares [Word.includeIn, Word.excludeFrom] ∧
  p.2.Yields Word.excludeFrom fun p => StateList.entries p.value = [state])

include htagged

omit hfirst hst in
theorem Document.rewrites_remove : Rewrites d.shuts (removeAction d state allStates) w where
  others := fun _ _ hstart => removeAction_of_not_isStart hstart
  anywhere := fun _ _ _ => rfl
  pass := fun _ _ hshut => by
    rw [removeAction_of_declarations (by rfl) (of_decide_eq_true hshut)]
  starts := by
    intro met selfClosing content hexposed
    by_cases hblock : (Token.ofStart selfClosing content).localName = d.declarations
    · exact Or.inl (by rw [removeAction_of_declarations (isStart_ofStart selfClosing content) hblock])
    · obtain ⟨st, p, hmem, rfl, hst, htag⟩ := h.exists_exposedTag htidy htags hexposed hblock
      obtain ⟨hspares, hyields⟩ := htagged _ hmem
      rcases hst.removeAction_cases isWord_of_lists (hspares.laid htag hst) List.mem_cons_self
        (List.mem_cons_of_mem _ List.mem_cons_self) hblock (hyields.startTag htag hst) with
        herase | ⟨st', hst', hreplace⟩
      · exact Or.inr (Or.inl herase)
      · exact Or.inr (Or.inr ⟨st'.content, hreplace,
          hst'.sound.replaces hst.tidy.regular hst'.name selfClosing⟩)

theorem Document.remade_removeState
    (hstays : (removeAction d state allStates false (.ofStart selfClosing st.content)).2 ≠ .erase)
    (hyields : st.Yields Word.states fun p => StateList.entries p.value = [state]) :
    (removeState d state allStates w.source).complete = true ∧
      Remade st.name (removeState d state allStates w.source).text := by
  obtain ⟨st₁, hst₁, hyields₁, hname₁, hroot⟩ : ∃ st₁ : StartTag, st₁.Sound ∧
      (st₁.Yields Word.states fun p => StateList.entries p.value = [state]) ∧ st₁.name = st.name ∧
      ((removeAction d state allStates false (.ofStart selfClosing st.content)).2 = .pass ∧
          st₁.content = st.content ∨
        (removeAction d state allStates false (.ofStart selfClosing st.content)).2 =
          .replace (Event.start selfClosing st₁.content).source) := by
    by_cases hblock : (Token.ofStart selfClosing st.content).localName = d.declarations
    · exact ⟨st, hst, hyields, rfl, Or.inl ⟨by
        rw [removeAction_of_declarations (isStart_ofStart selfClosing st.content) hblock], rfl⟩⟩
    · obtain ⟨token, hmem, htag⟩ := h.exists_rootTag htidy htags hfirst hst
        (Dialect.withholds_of_not_block hblock [])
      obtain ⟨hlists, hyieldsList⟩ := htagged _ hmem
      rcases hst.removeAction_cases (List.forall_mem_cons.mpr ⟨isWord_states, isWord_of_lists⟩)
        ((hlists.laid htag hst).cons hyields.spares) (by simp) (by simp) hblock
        (hyieldsList.startTag htag hst) with herase | ⟨st₁, hst₁, hreplace⟩
      · exact absurd herase hstays
      · exact ⟨st₁, hst₁.sound, hst₁.yields List.mem_cons_self hyields, hst₁.name, Or.inr hreplace⟩
  obtain ⟨w₁, hrevise, hw₁, hfirst₁⟩ :=
    h.exists_revised hfirst (h.rewrites_remove htidy htags htagged) hroot
  have hundeclare : ∀ tag, undeclaredTag? state (st₁.text selfClosing) = some tag →
      ∃ st₂ : StartTag, st₂.Sound ∧ st₂.name = st₁.name ∧ tag = st₂.text selfClosing := by
    intro tag hdrop
    obtain ⟨slot, hfind, hdrop⟩ := Option.bind_eq_some_iff.mp hdrop
    split at hdrop
    · next hmem =>
      cases hdrop
      obtain ⟨st₂, hst₂, -, hname₂, -, htext⟩ := hst₁.exists_dropped
        (List.forall_mem_singleton.mpr isWord_states) (hst₁.laid_singleton hyields₁.spares)
        List.mem_cons_self hyields₁ hfind (List.contains_iff_mem.mp hmem)
      exact ⟨st₂, hst₂, hname₂, htext⟩
    · cases hdrop
  rw [removeState, hrevise, Outcome.andThen, undeclareState_eq, ← hname₁]
  exact ⟨rfl, hw₁.remade_editRoot hfirst₁ hst₁ hundeclare⟩

end

end

end Markup

/-! ## A document -/

/-- **State edits that suit a document keep it well-formed.** -/
theorem wellFormed_of_run {t : Text} {root : Tag} {d : Dialect} {edit : StateEdit}
    (h : TidyText t root) (hdoctype : NoDoctype t) (hparse : parseStrict t = .ok root)
    (hplain : edit.Plain) (hsuits : edit.Suits d t) :
    (edit.run d t).complete = true ∧ ∃ root', parseStrict (edit.run d t).text = .ok root' ∧
      root'.name = root.name := by
  obtain ⟨w, rfl, hw, htags⟩ := h.exists_markup hdoctype hparse
  obtain ⟨selfClosing, content, hfirst⟩ := hw.single.exists_first
  obtain ⟨st, rfl, hst, hname⟩ := h.exists_sound hw rfl htags (Markup.mem_events_of_first hfirst)
  obtain ⟨token, hhead, htoken⟩ := hw.exists_head hfirst
  have htag : token.IsTag [] st selfClosing := hst.isTag hname htoken
  rw [(Markup.entries_of_first hfirst htags hst).1]
  cases edit with
  | create allStates state model =>
    exact hw.remade_createState h htags hfirst hst hplain.1 hplain.2
      ((hsuits.receives token hhead).startTag htag hst) hsuits
  | remove state allStates =>
    obtain ⟨hroot, htagged⟩ := hsuits
    obtain ⟨hstays, hyields⟩ := hroot token hhead
    refine hw.remade_removeState h htags hfirst hst htagged ?_ (hyields.startTag htag hst)
    rw [← htoken.ofStart_eq]
    exact hstays
  | rename old new =>
    obtain ⟨hspares, htagged⟩ := hsuits
    refine hw.remade_renameState h htags hfirst hst hplain.1 hplain.2 htagged fun p hp => ?_
    exact hspares token hhead p (htag.pieces_eq ▸ hp) Word.states List.mem_cons_self
  | start state =>
    obtain ⟨hreceives, hyields⟩ := hsuits token hhead
    refine hw.remade_setStartState hfirst hst hplain
      (fun hne => (hreceives hne).startTag htag hst) fun hnil => ?_
    rw [← htag.pieces_eq]
    exact (hyields hnil).startTag htag hst

/-- A state that is there already is created, removed and renamed, and a document gets
another state to start in or none. The words are in the values of other attributes, and
the names of elements without a place for attributes end in a blank. -/
theorem wellFormed_of_run_held :
    let t := "<e:Skin states=\"up,down\" currentState = 'up' xmlns:e='w' title='the states'>
      <Rect includeIn=\"up\" width.up=\"2\"/><Label excludeFrom=\"down\">up</Label>
      <b\u1680 includeIn='up,b&amp;c'/></e:Skin>".toList
    let up := ['u', 'p']
    let down := ['d', 'o', 'w', 'n']
    ∃ root, (TidyText t root ∧ NoDoctype t ∧ parseStrict t = .ok root) ∧
      ∀ edit ∈ [StateEdit.create [up, down] up none, .create [up, down] down (some up),
          .remove up [up, down], .rename up down, .start (some down), .start none],
        (edit.Plain ∧ edit.Suits Dialect.standard t) ∧
          (edit.run Dialect.standard t).complete = true ∧
          ∃ root', parseStrict (edit.run Dialect.standard t).text = .ok root' ∧
            root'.name = root.name := by
  intro t up down
  have hany : ((parseStrict t).toOption.any fun root => decide (TidyText t root) &&
      decide (NoDoctype t) &&
      decide (∀ edit ∈ [StateEdit.create [up, down] up none, .create [up, down] down (some up),
          .remove up [up, down], .rename up down, .start (some down), .start none],
        edit.Plain ∧ edit.Suits Dialect.standard t)) = true := by
    decide +kernel
  obtain ⟨root, hparse, hproperties⟩ := exists_of_any_toOption hany
  simp only [Bool.and_eq_true, decide_eq_true_eq] at hproperties
  obtain ⟨⟨htidy, hdoctype⟩, hedits⟩ := hproperties
  refine ⟨root, ⟨htidy, hdoctype, hparse⟩, fun edit hedit => ?_⟩
  obtain ⟨hplain, hsuits⟩ := hedits edit hedit
  exact ⟨⟨hplain, hsuits⟩, wellFormed_of_run htidy hdoctype hparse hplain hsuits⟩

/-- Edits that do not suit a document. An attribute gets the name of another one, or the
root goes with its only state. A value spells the name of an attribute that is looked
up; the attribute itself is not found or not as a whole; the blank that ends a name
comes behind a new attribute or goes with an old one. The last edit suits a document
that is no element in the scan. -/
theorem not_wellFormed_of_run :
    let a := ['a']
    let q := ['q']
    ∀ p ∈ [("<r x.a=\"1\" x.q=\"2\"/>".toList, StateEdit.rename a q),
        ("<r x=\" includeIn=\" \u1680y=',a,' y=\"1\"/>".toList, .rename a q),
        ("<r x=\" excludeFrom=\" \u1680y=',a,' y=\"1\"/>".toList, .rename a q),
        ("<r x=\" states=\" \u1680y=',a,' y=\"1\"/>".toList, .rename a q),
        ("<r includeIn=\"a\"/>".toList, .remove a [a, q]),
        ("<r x=\" states \" y=\"a\"/>".toList, .remove a [a, q]),
        ("<r states = 'x\"a\"y'/>".toList, .remove a [a, q]),
        ("<r\u1680 states=\"a\"></r\u1680>".toList, .remove a [a, q]),
        ("<r><R x=\" excludeFrom \" y=\"a\"/></r>".toList, .remove a [a, q]),
        ("<r><R excludeFrom = 'x\"a\"y'/></r>".toList, .remove a [a, q]),
        ("<r><R\u1680 excludeFrom=\"a\"></R\u1680></r>".toList, .remove a [a, q]),
        ("<r><R x=\" includeIn=\" \u1680y=',a,b,a' y=\"1\"/></r>".toList, .remove a [a, q]),
        ("<r x=\" states=\" y=\"1\"/>".toList, .create [a] q none),
        ("<r states = \"a=b\"/>".toList, .create [a] q none),
        ("<r\u1680/>".toList, .create [a] q none),
        ("<r><R x=\" excludeFrom=\" y=\"1\"/></r>".toList, .create [a] q none),
        ("<r><R x=\" includeIn=y\" includeIn = \"a\"/></r>".toList, .create [a] q none),
        ("<r><R includeIn = \"a=b\"/></r>".toList, .create [a] q none),
        ("<r><R\u1680/></r>".toList, .create [a] q none),
        ("<r><R x=' includeIn=\"a,' y=\"1\"/></r>".toList, .create [a] q (some a)),
        ("<r><R x=' excludeFrom=\"a,' y=\"1\"/></r>".toList, .create [a] q (some [])),
        ("<r x=\" currentState=\" y='\"'/>".toList, .start (some a)),
        ("<r currentState = \"a=b\"/>".toList, .start (some a)),
        ("<r\u1680/>".toList, .start (some a)),
        ("<r x=\" currentState \" y=\"1\"/>".toList, .start none),
        ("<r currentState = 'x\"a\"y'/>".toList, .start none),
        ("<r\u1680 currentState=\"a\"></r\u1680>".toList, .start none),
        ("<!doctype x <<b><c y=\">\" includeIn=\"a\"/>><r/>".toList, .remove a [a, q])],
      ∃ root, (TidyText p.1 root ∧ containsWord "<!DOCTYPE".toList p.1 = false ∧
          parseStrict p.1 = .ok root ∧ p.2.Plain) ∧
        ∀ root', parseStrict (p.2.run Dialect.standard p.1).text ≠ .ok root' := by
  intro a q
  let check (p : Text × StateEdit) : Bool :=
    ((parseStrict p.1).toOption.any fun root => decide (TidyText p.1 root)) &&
      !containsWord "<!DOCTYPE".toList p.1 && decide p.2.Plain &&
      (parseStrict (p.2.run Dialect.standard p.1).text).toOption.isNone
  have hcheck : ∀ p, check p = true → ∃ root, (TidyText p.1 root ∧
      containsWord "<!DOCTYPE".toList p.1 = false ∧ parseStrict p.1 = .ok root ∧ p.2.Plain) ∧
        ∀ root', parseStrict (p.2.run Dialect.standard p.1).text ≠ .ok root' := by
    intro p hp
    simp only [check, Bool.and_eq_true, Bool.not_eq_true', decide_eq_true_eq] at hp
    obtain ⟨⟨⟨hany, hdoctype⟩, hplain⟩, hnone⟩ := hp
    obtain ⟨root, hparse, htidy⟩ := exists_of_any_toOption hany
    refine ⟨root, ⟨of_decide_eq_true htidy, hdoctype, hparse, hplain⟩, fun root' hparse' => ?_⟩
    rw [hparse'] at hnone
    cases hnone
  intro p hp
  exact hcheck p (List.all_eq_true.mp (by decide +kernel) p hp)

end SkinMarkup
