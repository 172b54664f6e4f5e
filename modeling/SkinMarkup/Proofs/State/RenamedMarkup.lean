import SkinMarkup.Proofs.State.Actions
import SkinMarkup.Proofs.State.RenamedTag
import SkinMarkup.Proofs.State.Revisions

/-!
# Documents with a renamed state

Renaming a state in an editable document gives a document with the same elements.
Their lists of states have the new name where they had the old one, but for the
declaration of the state, whose lists stay as they are unless they are the value
that is respelled: `Document.exists_renamed`.
-/

namespace SkinMarkup

/-- What a start tag says before and after a state got another name. -/
structure RenamedElement (d : Dialect) (old new : Text) (inside : Bool)
    (e e' : Text × List (Text × Text)) : Prop where
  name : e'.1 = e.1
  touched : ∀ word, Word.isStateList word = true →
    ListTouched old new (valueIn? word e.2) (valueIn? word e'.2)
  renamed : inside = false → localOf e.1 ≠ d.state → ∀ word, Word.isStateList word = true →
    ListRenamed old new (valueIn? word e.2) (valueIn? word e'.2)

namespace Markup

variable {w : Markup} {d : Dialect} {old new : Text} {selfClosing : Bool} {st : StartTag}

/-- Markup in which a state can get another name. -/
def Relabelable (old new : Text) (w : Markup) : Prop :=
  ∀ selfClosing content, Event.start selfClosing content ∈ w.events →
    (StartTag.ofContent content).Relabelable old new

/-- What becomes of a start tag when a state gets another name. -/
theorem exists_renameAction (hst : st.Ready) (hold : isStateName old = true)
    (hnew : isStateName new = true) (hlabels : st.Relabelable old new) (d : Dialect) (met : Bool)
    (selfClosing : Bool) :
    (d.isBlock st.content = true ∧
        renameAction d old new met (.ofStart selfClosing st.content) = (met, .pass)) ∨
      (d.isBlock st.content = false ∧ ∃ met' st', StartTag.Successor st st' ∧
        renameAction d old new met (.ofStart selfClosing st.content) =
          (met', .replace (Event.start selfClosing st'.content).source) ∧
        RenamedElement d old new false (elementOf st.content) (elementOf st'.content)) := by
  have htidy := hst.listed.tidy
  have hname : (Token.ofStart selfClosing st.content).localName = localOf st.name := by
    rw [htidy.localName_of_isToken ⟨rfl, rfl⟩, htidy.regular.elementName_content]
  have hstart := isStart_ofStart selfClosing st.content
  have htext : (Token.ofStart selfClosing st.content).text = st.text selfClosing :=
    StartTag.source_start selfClosing st
  have helement : ∀ {st' : StartTag}, StartTag.Successor st st' →
      (∀ word, Word.isStateList word = true →
        ListTouched old new (st.value? word) (st'.value? word)) →
      (localOf st.name ≠ d.state → ∀ word, Word.isStateList word = true →
        ListRenamed old new (st.value? word) (st'.value? word)) →
      RenamedElement d old new false (elementOf st.content) (elementOf st'.content) := by
    intro st' hsuccessor htouched hrenamed
    refine ⟨?_, fun word hword => ?_, fun _ hlocal word hword => ?_⟩
    · rw [hsuccessor.ready.elementOf_fst, hst.elementOf_fst, hsuccessor.name]
    · rw [hst.valueIn?_eq hword, hsuccessor.ready.valueIn?_eq hword]
      exact htouched word hword
    · rw [hst.elementOf_fst] at hlocal
      rw [hst.valueIn?_eq hword, hsuccessor.ready.valueIn?_eq hword]
      exact hrenamed hlocal word hword
  rw [htidy.regular.isBlock_content, ← hname]
  by_cases hblock : (Token.ofStart selfClosing st.content).localName = d.declarations
  · exact Or.inl ⟨beq_iff_eq.mpr hblock, renameAction_of_declarations hstart hblock⟩
  · refine Or.inr ⟨beq_eq_false_iff_ne.mpr hblock, ?_⟩
    obtain ⟨met', tag, haction, hcases⟩ := renameAction_of_isStart_cases hstart hblock
    rw [haction]
    rw [htext] at hcases
    rcases hcases with ⟨hdeclares, hrename⟩ | rfl
    · obtain ⟨st', rfl, hsuccessor, -, htouched⟩ := hst.exists_redeclared hold hnew hrename
      exact ⟨met', st', hsuccessor, by rw [StartTag.source_start],
        helement hsuccessor htouched fun hlocal => absurd (hname ▸ hdeclares) hlocal⟩
    · obtain ⟨st', hrenamed, hsuccessor, hlists⟩ := hst.exists_renamed hold hnew hlabels selfClosing
      exact ⟨met', st', hsuccessor, by rw [hrenamed, StartTag.source_start],
        helement hsuccessor (fun word hword => Or.inr (hlists word hword)) fun _ => hlists⟩

section

variable (hready : w.Ready) (hold : isStateName old = true) (hnew : isStateName new = true)
  (hlabels : w.Relabelable old new)

include hready hold hnew hlabels

theorem Ready.rewrites_rename (d : Dialect) :
    Rewrites (fun _ => false) (renameAction d old new) w := by
  refine ⟨fun met token hstart => renameAction_of_not_isStart hstart, fun _ _ _ => rfl,
    fun _ _ hshut => Bool.noConfusion hshut, fun met selfClosing content hexposed => ?_⟩
  have hmem := mem_events_of_exposed hexposed
  obtain ⟨st, rfl, hst⟩ := hready selfClosing content hmem
  have hst' := hlabels selfClosing _ hmem
  rw [hst.listed.tidy.ofContent_content] at hst'
  rcases exists_renameAction hst hold hnew hst' d met selfClosing with
    ⟨-, hpass⟩ | ⟨-, met', st', hsuccessor, hreplace, -⟩
  · exact Or.inl (by rw [hpass])
  · exact Or.inr (Or.inr ⟨st'.content, by rw [hreplace], hsuccessor.replaces hst selfClosing⟩)

theorem Ready.keeps_rename (d : Dialect) :
    Keeps d everything everything
      (fun inside content content' =>
        RenamedElement d old new inside (elementOf content) (elementOf content'))
      (judgeOf (renameAction d old new)) w := by
  have hcases : ∀ met selfClosing content, Event.start selfClosing content ∈ w.events →
      (d.isBlock content = true ∧
          (judgeOf (renameAction d old new) met selfClosing content).2 = .pass) ∨
        (d.isBlock content = false ∧ ∃ content', d.isBlock content' = false ∧
          (judgeOf (renameAction d old new) met selfClosing content).2 = .write content' ∧
          RenamedElement d old new false (elementOf content) (elementOf content')) := by
    intro met selfClosing content hmem
    obtain ⟨st, rfl, hst⟩ := hready selfClosing content hmem
    have hst' := hlabels selfClosing _ hmem
    rw [hst.listed.tidy.ofContent_content] at hst'
    rcases exists_renameAction hst hold hnew hst' d met selfClosing with
      ⟨hblock, hpass⟩ | ⟨hblock, met', st', hsuccessor, hreplace, helement⟩
    · exact Or.inl ⟨hblock, by rw [judgeOf, hpass]; rfl⟩
    · refine Or.inr ⟨hblock, st'.content, by rw [hsuccessor.isBlock hst, hblock], ?_, helement⟩
      rw [judgeOf, hreplace]
      exact congrArg Verdict.write (contentOf_source selfClosing st'.content)
  refine ⟨fun content => ⟨rfl, fun _ _ => .refl _ _ _, fun h => Bool.noConfusion h⟩,
    fun _ => rfl, ?_, ?_, ?_, ?_⟩
  · intro met selfClosing content hmem hblock
    rcases hcases met selfClosing content hmem with ⟨-, hpass⟩ | ⟨hblock', -⟩
    · exact hpass
    · rw [hblock'] at hblock
      cases hblock
  · intro met selfClosing content hmem hblock hpass
    rcases hcases met selfClosing content hmem with ⟨hblock', -⟩ | ⟨-, content', -, hwrite, -⟩
    · rw [hblock'] at hblock
      cases hblock
    · rw [hwrite] at hpass
      cases hpass
  · intro met selfClosing content hmem herase
    rcases hcases met selfClosing content hmem with ⟨-, hpass⟩ | ⟨-, content', -, hwrite, -⟩
    · rw [hpass] at herase
      cases herase
    · rw [hwrite] at herase
      cases herase
  · intro met selfClosing content content' hmem hwrite
    rcases hcases met selfClosing content hmem with ⟨-, hpass⟩ | ⟨-, written, hblock, hwritten, helement⟩
    · rw [hpass] at hwrite
      cases hwrite
    · rw [hwritten] at hwrite
      cases hwrite
      exact ⟨hblock, rfl, helement⟩

end

/-! ## The list on the root -/

/-- **Renaming a state in the list on the root renames it in the markup.** -/
theorem Document.redeclareState_source (h : w.Document)
    (hfirst : w.first? = some (selfClosing, st.content)) (hst : st.Ready)
    (hdeclaring : st.Declaring) (old new : Text) :
    redeclareState old new w.source =
      ⟨(w.setFirst (st.rewrite (.relist Word.states old new)).content).source, true⟩ := by
  have htext := hst.listed.tidy.rename_text (hst.clear_states hdeclaring) isWord_states old new
    selfClosing
  rw [redeclareState]
  rcases htext with hsome | ⟨hnone, hsame⟩
  · rw [editRoot_source h.lexed h.scannable.opens hfirst
      (some (st.rewrite (.relist Word.states old new)).content) fun token htoken => ?_]
    · rfl
    · rw [htoken.text, StartTag.source_start, hsome, Option.map_some, StartTag.source_start]
  · rw [editRoot_source h.lexed h.scannable.opens hfirst none fun token htoken => ?_]
    · rw [hsame, setFirst_eq_self hfirst]
      rfl
    · rw [htoken.text, StartTag.source_start, hnone]
      rfl

/-- **Renaming a state gives a document with the same elements.** -/
theorem Document.exists_renamed (h : w.Document) (hready : w.Ready) (hold : isStateName old = true)
    (hnew : isStateName new = true) (hlabels : w.Relabelable old new)
    (hfirst : w.first? = some (selfClosing, st.content)) (hst : st.Ready)
    (hdeclaring : st.Declaring) (d : Dialect) :
    ∃ w' : Markup, w'.Document ∧ renameState d old new w.source = ⟨w'.source, true⟩ ∧
      List.Forall₂ (SpotRel fun inside content content' =>
          RenamedElement d old new inside (elementOf content) (elementOf content'))
        (w.spots d everything false 0) (w'.spots d everything false 0) := by
  have hrewrites := hready.rewrites_rename hold hnew hlabels d
  have hkeeps := hready.keeps_rename hold hnew hlabels d
  have hmem := mem_events_of_first hfirst
  have hlabelsRoot := hlabels selfClosing _ hmem
  rw [hst.listed.tidy.ofContent_content] at hlabelsRoot
  -- The root after the first pass.
  obtain ⟨st', hcontent, hsuccessor⟩ : ∃ st' : StartTag,
      (judgeOf (renameAction d old new) false selfClosing st.content).2.content st.content =
        st'.content ∧ StartTag.Successor st st' := by
    rcases exists_renameAction hst hold hnew hlabelsRoot d false selfClosing with
      ⟨-, hpass⟩ | ⟨-, met', st', hsuccessor, hreplace, -⟩
    · exact ⟨st, by rw [judgeOf, hpass]; rfl, hst.successor⟩
    · refine ⟨st', ?_, hsuccessor⟩
      rw [judgeOf, hreplace]
      exact contentOf_source selfClosing st'.content
  have hroot : (judgeOf (renameAction d old new) false selfClosing st.content).2 ≠ .erase :=
    fun herase => Bool.noConfusion (hkeeps.erase false selfClosing st.content hmem herase)
  have hw' : (w.revise (judgeOf (renameAction d old new)) false []).2.Document := by
    refine h.revise_outside hrewrites.careful fun selfClosing' content hfirst' => ?_
    cases hfirst.symm.trans hfirst'
    exact hroot
  have hfirst' := first?_revise (judgeOf (renameAction d old new)) false hfirst hroot []
  rw [hcontent] at hfirst'
  have hlast := hsuccessor.ready.successor_relist hnew (hsuccessor.declaring hdeclaring) old
  refine ⟨_, hw'.setFirst hfirst' (hlast.replaces hsuccessor.ready selfClosing), ?_,
    hw'.single.forall₂_setFirst hfirst' (forall₂_spots_revise hkeeps false [] 0)
      (hlast.isBlock hsuccessor.ready d) rfl fun content helement => ?_⟩
  · rw [renameState, reviseText_source_outside h.lexed h.scannable hrewrites.follows, Outcome.andThen,
      hw'.redeclareState_source hfirst' hsuccessor.ready (hsuccessor.declaring hdeclaring)]
    rfl
  · have hlists : ∀ word, Word.isStateList word = true →
        valueIn? word (elementOf (st'.rewrite (.relist Word.states old new)).content).2 =
          valueIn? word (elementOf st'.content).2 := by
      intro word hword
      rw [hlast.ready.valueIn?_eq hword, hsuccessor.ready.valueIn?_eq hword,
        StartTag.value?_relist_of_ne]
      rintro rfl
      cases hword
    refine ⟨?_, fun word hword => ?_, fun hinside hlocal word hword => ?_⟩
    · rw [← helement.name, hlast.ready.elementOf_fst, hsuccessor.ready.elementOf_fst]
      rfl
    · rw [hlists word hword]
      exact helement.touched word hword
    · rw [hlists word hword]
      exact helement.renamed hinside hlocal word hword

end Markup

end SkinMarkup
