import SkinMarkup.Proofs.State.Declarations
import SkinMarkup.Proofs.State.RemovedTag
import SkinMarkup.Proofs.State.Revisions

/-!
# A removed state leaves the others as they were

After a state was removed, every other state shows what it showed, but for the
declaration of the state that is gone. No list outside the blocks of declarations
has the state, no attribute applies to it, and no element declares it:
`visible_of_removeState`.
-/

namespace SkinMarkup

/-! ## Elements before and after -/

/-- An element without a state. -/
def removedElement (state : Text) (element : Text × List (Text × Text)) :
    Text × List (Text × Text) :=
  (element.1, element.2.filterMap (ValueEdit.remove state).entry)

/-- The attributes of an element without a state, `level` elements deep. The root
has the list of the document's states. -/
def removedAt (state : Text) (level : Nat) (inside : Bool) (entries : List (Text × Text)) :
    List (Text × Text) :=
  let entries := if inside then entries else entries.filterMap (ValueEdit.remove state).entry
  if level = 0 then entries.filterMap (ValueEdit.shorten Word.states state).entry else entries

/-- An element before and after a state was removed. -/
structure RemovedSpot (state : Text) (p p' : Spot (Text × List (Text × Text))) : Prop where
  level : p'.level = p.level
  inside : p'.inside = p.inside
  name : p'.element.1 = p.element.1
  entries : p'.element.2 = removedAt state p.level p.inside p.element.2

/-- An element that has nothing to do with a state, unless it is in a block of
declarations. -/
structure WithoutState (d : Dialect) (state : Text) (p : Spot (Text × List (Text × Text))) :
    Prop where
  labels : p.inside = false → ∀ e ∈ p.element.2, stemFor? state e.1 = none
  lists : p.inside = false → ∀ e ∈ p.element.2, Word.isStateList e.1 = true →
    state ∉ StateList.entries e.2
  declaration : p.inside = false → d.declares state p.element = false
  states : p.level = 0 → ∀ value ∈ valueIn? Word.states p.element.2,
    state ∉ StateList.entries value

section

variable {d : Dialect} {state name value value' : Text} {level : Nat}
  {entries : List (Text × Text)} {e : Text × Text}

/-- A list that had a state once has not got it without the state. -/
theorem not_mem_of_without (hcount : (StateList.entries value).count state ≤ 1)
    (h : StateList.without state value = some value') : state ∉ StateList.entries value' := by
  rw [StateList.without_eq_some h, StateList.entries_render fun e he =>
    (StateList.mem_entries (List.mem_of_mem_erase he)).1, ← List.count_eq_zero,
    List.count_erase_self]
  omega

theorem not_mem_of_remove (hname : Word.isStateList name = true)
    (hcount : (StateList.entries value).count state ≤ 1)
    (h : ValueEdit.remove state name value = some value') : state ∉ StateList.entries value' := by
  rw [remove_list hname] at h
  split at h
  · exact not_mem_of_without hcount h
  · next hnot =>
    cases h
    exact hnot

theorem not_mem_of_shorten (hcount : (StateList.entries value).count state ≤ 1)
    (h : ValueEdit.shorten name state name value = some value') :
    state ∉ StateList.entries value' := by
  rw [ValueEdit.shorten] at h
  split at h
  · exact not_mem_of_without hcount h
  · next hnot =>
    cases h
    exact fun hmem => hnot ⟨rfl, hmem⟩

theorem stemFor?_of_remove (h : ValueEdit.remove state name value = some value') :
    stemFor? state name = none := by
  rw [ValueEdit.remove] at h
  split at h
  · cases h
  · next hstem => simpa using hstem

/-- An attribute without a state was there before. The root's list of states is
shorter. -/
theorem exists_of_mem_removedAt (h : e ∈ removedAt state level false entries) :
    ∃ value, (e.1, value) ∈ entries ∧ ∃ value', ValueEdit.remove state e.1 value = some value' ∧
      (e.1 ≠ Word.states → e.2 = value') := by
  rw [removedAt] at h
  simp only [Bool.false_eq_true, if_false] at h
  split at h
  · obtain ⟨value', hmem, hshorten⟩ := ValueEdit.exists_of_mem_filterMap h
    obtain ⟨value, hmem', hremove⟩ := ValueEdit.exists_of_mem_filterMap hmem
    refine ⟨value, hmem', value', hremove, fun hne => ?_⟩
    rw [ValueEdit.shorten, if_neg fun hand => hne hand.1] at hshorten
    exact (Option.some.inj hshorten).symm
  · obtain ⟨value, hmem, hremove⟩ := ValueEdit.exists_of_mem_filterMap h
    exact ⟨value, hmem, e.2, hremove, fun _ => rfl⟩

theorem valueIn?_removedAt (hnodup : (entries.map Prod.fst).Nodup) (name : Text) :
    valueIn? name (removedAt state level false entries) =
      ((valueIn? name entries).bind (ValueEdit.remove state name)).bind fun value =>
        if level = 0 then ValueEdit.shorten Word.states state name value else some value := by
  rw [removedAt]
  simp only [Bool.false_eq_true, if_false]
  split
  · rw [valueIn?_filterMap (ValueEdit.nodup_filterMap hnodup), valueIn?_filterMap hnodup]
  · rw [valueIn?_filterMap hnodup, Option.bind_fun_some]

/-- **An element that stays has nothing to do with a state,** if its lists had the
state once. -/
theorem RemovedSpot.withoutState {p p' : Spot (Text × List (Text × Text))}
    (h : RemovedSpot state p p') (hroot : p.level = 0 → p.inside = false)
    (hnodup : (p.element.2.map Prod.fst).Nodup)
    (hdeclares : p.inside = false → d.declares state p.element = false)
    (hlists : ∀ e ∈ p.element.2, Word.isStateList e.1 = true →
      (StateList.entries e.2).count state ≤ 1)
    (hstates : p.level = 0 → ∀ value ∈ valueIn? Word.states p.element.2,
      (StateList.entries value).count state ≤ 1) : WithoutState d state p' := by
  obtain ⟨hlevel, hinside, hname, hentries⟩ := h
  constructor
  · intro hout e he
    rw [hentries, ← hinside, hout] at he
    obtain ⟨value, -, value', hremove, -⟩ := exists_of_mem_removedAt he
    exact stemFor?_of_remove hremove
  · intro hout e he hlist
    rw [hentries, ← hinside, hout] at he
    obtain ⟨value, hmem, value', hremove, heq⟩ := exists_of_mem_removedAt he
    rw [heq (by rintro h; rw [h] at hlist; cases hlist)]
    exact not_mem_of_remove hlist (hlists _ hmem hlist) hremove
  · intro hout
    rw [hinside] at hout
    have hsame : valueIn? Word.name p'.element.2 = valueIn? Word.name p.element.2 := by
      rw [hentries, hout, valueIn?_removedAt hnodup]
      cases valueIn? Word.name p.element.2 with
      | none => rfl
      | some value =>
        have hremove : ValueEdit.remove state Word.name value = some value := by
          have hlist : Word.isStateList Word.name = false := rfl
          simp [ValueEdit.remove, StartTag.stemFor?_of_isWord isWord_name, hlist]
        have hne : Word.name ≠ Word.states := by decide
        simp [hremove, ValueEdit.shorten, hne]
    rw [Dialect.declares, hname, hsame]
    exact hdeclares hout
  · intro hzero value hvalue
    rw [hlevel] at hzero
    rw [hentries, hroot hzero, valueIn?_removedAt hnodup, hzero] at hvalue
    cases hstate : valueIn? Word.states p.element.2 with
    | none =>
      rw [hstate] at hvalue
      cases hvalue
    | some old =>
      rw [hstate, Option.bind_some, StartTag.remove_states, Option.bind_some, if_pos rfl] at hvalue
      exact not_mem_of_shorten (hstates hzero old hstate) hvalue

end

theorem sheds_removedElement {state : Text} {element : Text × List (Text × Text)}
    (hnodup : (element.2.map Prod.fst).Nodup) :
    Sheds state (.ofElement element) (.ofElement (removedElement state element)) where
  localName := rfl
  includeIn := valueIn?_filterMap hnodup _
  excludeFrom := valueIn?_filterMap hnodup _

namespace Markup

variable {w : Markup} {d : Dialect} {state other : Text} {allStates : List Text}
  {selfClosing : Bool} {content : Text} {st : StartTag}

/-- Whether an element goes with a state. -/
def goesWith (d : Dialect) (state : Text) (allStates : List Text)
    (element : Text × List (Text × Text)) : Bool :=
  d.declares state element || isLeftOut state allStates
    (valueIn? Word.includeIn element.2) (valueIn? Word.excludeFrom element.2)

/-! ## The judge -/

/-- What becomes of an element. -/
theorem eachRemoveJudge_eq (hst : st.Ready) (hnaming : st.Naming d) (hmany : 2 ≤ allStates.length)
    (selfClosing : Bool) :
    (eachRemoveJudge d state allStates () selfClosing st.content).2 =
      if d.isBlock st.content then .pass
      else if goesWith d state allStates (elementOf st.content) then .erase
      else .write (st.removed state).content := by
  rw [eachRemoveJudge, removeJudge, declares_eq hst hnaming, hst.listed.tidy.ofContent_content,
    goesWith, StartTag.goes, ← hst.valueIn?_eq rfl, ← hst.valueIn?_eq rfl]
  split
  · rfl
  rw [if_neg (by omega)]
  cases d.declares state (elementOf st.content) with
  | true => rfl
  | false =>
    simp only [Bool.not_false, Bool.true_and, Bool.false_eq_true, if_false, Bool.false_or]
    split <;> rfl

/-- What a start tag says before and after a state was removed. -/
def RemovedContent (state : Text) (inside : Bool) (content content' : Text) : Prop :=
  elementOf content' =
    if inside then elementOf content else removedElement state (elementOf content)

/-- The same for the start tag of a root. -/
def RemovedRoot (state : Text) (inside : Bool) (content content' : Text) : Prop :=
  elementOf content' =
    ((elementOf content).1, removedAt state 0 inside (elementOf content).2)

/-- Markup from which a state can be removed. -/
def Removing (d : Dialect) (state : Text) (w : Markup) : Prop :=
  ∀ selfClosing content, Event.start selfClosing content ∈ w.events →
    ∃ st : StartTag, st.content = content ∧ st.Ready ∧ st.Removable state ∧ st.Naming d

section

variable (hw : w.Removing d state) (hmany : 2 ≤ allStates.length)

include hw hmany

theorem Removing.careful : Careful (eachRemoveJudge d state allStates) w := by
  intro memory selfClosing content content' hmem hwrite
  obtain ⟨st, rfl, hst, -, hnaming⟩ := hw selfClosing content hmem
  rw [eachRemoveJudge_eq hst hnaming hmany] at hwrite
  split at hwrite
  · cases hwrite
  split at hwrite
  · cases hwrite
  · cases hwrite
    exact (hst.successor_removed state).replaces hst selfClosing

/-- **Elements that stay keep their places,** without the state. -/
theorem Removing.keeps {keep keep' : Bool → Tag → Bool}
    (hinside : ∀ content, keep' true (alone content) = keep true (alone content))
    (hgoes : ∀ selfClosing content, Event.start selfClosing content ∈ w.events →
      goesWith d state allStates (elementOf content) = true → keep false (alone content) = false)
    (hstays : ∀ selfClosing content content', Event.start selfClosing content ∈ w.events →
      goesWith d state allStates (elementOf content) = false →
      elementOf content' = removedElement state (elementOf content) →
      keep' false (alone content') = keep false (alone content)) :
    Keeps d keep keep' (RemovedContent state) (eachRemoveJudge d state allStates) w := by
  refine ⟨fun content => rfl, hinside, ?_, ?_, ?_, ?_⟩
  · intro memory selfClosing content hmem hblock
    obtain ⟨st, rfl, hst, -, hnaming⟩ := hw selfClosing content hmem
    rw [eachRemoveJudge_eq hst hnaming hmany, if_pos hblock]
  · intro memory selfClosing content hmem hblock hpass
    obtain ⟨st, rfl, hst, -, hnaming⟩ := hw selfClosing content hmem
    rw [eachRemoveJudge_eq hst hnaming hmany, hblock, if_neg (by decide)] at hpass
    split at hpass <;> cases hpass
  · intro memory selfClosing content hmem herase
    obtain ⟨st, rfl, hst, -, hnaming⟩ := hw selfClosing content hmem
    rw [eachRemoveJudge_eq hst hnaming hmany] at herase
    split at herase
    · cases herase
    split at herase
    · next hgoes' => exact hgoes selfClosing _ hmem hgoes'
    · cases herase
  · intro memory selfClosing content content' hmem hwrite
    obtain ⟨st, rfl, hst, -, hnaming⟩ := hw selfClosing content hmem
    rw [eachRemoveJudge_eq hst hnaming hmany] at hwrite
    split at hwrite
    · cases hwrite
    next hblock =>
      split at hwrite
      · cases hwrite
      next hstays' =>
        cases hwrite
        have helement := hst.elementOf_removed state
        exact ⟨by rw [(hst.successor_removed state).isBlock hst]; simpa using hblock,
          hstays selfClosing _ _ hmem (by simpa using hstays') helement, helement⟩

end

/-! ## A document -/

/-- Markup without a state. -/
def without (d : Dialect) (state : Text) (allStates : List Text) (w : Markup) : Markup :=
  ((w.revise (eachRemoveJudge d state allStates) () []).2).undeclared state

section

variable (h : w.Document) (hw : w.Removing d state) (hmany : 2 ≤ allStates.length)
  (hfirst : w.first? = some (selfClosing, st.content)) (hst : st.Ready) (hnaming : st.Naming d)
  (hblock : d.isBlock st.content = false)
  (hstays : goesWith d state allStates (elementOf st.content) = false)

include hmany hfirst hst hnaming hblock hstays

/-- The root after the first pass. -/
theorem first?_revise_remove :
    (w.revise (eachRemoveJudge d state allStates) () []).2.first? =
      some (selfClosing, (st.removed state).content) := by
  have hroot : (eachRemoveJudge d state allStates () selfClosing st.content).2 =
      .write (st.removed state).content := by
    rw [eachRemoveJudge_eq hst hnaming hmany, hblock, hstays]
    rfl
  rw [first?_revise _ _ hfirst (by rw [hroot]; exact Verdict.noConfusion), hroot]
  rfl

theorem without_eq :
    w.without d state allStates = ((w.revise (eachRemoveJudge d state allStates) () []).2).setFirst
      ((st.removed state).rewrite (.shorten Word.states state)).content := by
  rw [without, undeclared_of_first (first?_revise_remove hmany hfirst hst hnaming hblock hstays)
    (hst.listed.tidy_removed state)]

include h hw

theorem Document.revise_remove :
    (w.revise (eachRemoveJudge d state allStates) () []).2.Document := by
  refine h.revise (hw.careful hmany) fun selfClosing' content hfirst' => ?_
  cases hfirst.symm.trans hfirst'
  rw [eachRemoveJudge_eq hst hnaming hmany, hblock, hstays]
  exact Verdict.noConfusion

variable (hdeclaring : st.Declaring)

include hdeclaring

/-- **Markup without a state is a document.** -/
theorem Document.without : (w.without d state allStates).Document := by
  have hsuccessor := hst.successor_removed state
  rw [without_eq hmany hfirst hst hnaming hblock hstays]
  exact (h.revise_remove hw hmany hfirst hst hnaming hblock hstays).setFirst
    (first?_revise_remove hmany hfirst hst hnaming hblock hstays)
    ((hsuccessor.ready.successor_shorten (hsuccessor.declaring hdeclaring) state).replaces
      hsuccessor.ready selfClosing)

/-- **Removing a state from a document removes it from the markup.** -/
theorem Document.removeState_source
    (hone : (declarations d state false 0 w).length ≤ 1)
    (hsolid : ∀ value, st.value? Word.states = some value → StateList.entries value = [state] →
      st.Solid) :
    removeState d state allStates w.source = ⟨(w.without d state allStates).source, true⟩ := by
  have hremovable : ∀ selfClosing content, Event.start selfClosing content ∈ w.events →
      ∃ st : StartTag, st.content = content ∧ st.Removable state := by
    intro selfClosing content hmem
    obtain ⟨st, hcontent, -, hremovable, -⟩ := hw selfClosing content hmem
    exact ⟨st, hcontent, hremovable⟩
  have hagree : ∀ selfClosing content, Event.start selfClosing content ∈ w.events →
      declares d state selfClosing content = d.declares state (elementOf content) := by
    intro selfClosing content hmem
    obtain ⟨st, rfl, hst, -, hnaming⟩ := hw selfClosing content hmem
    exact declares_eq hst hnaming state selfClosing
  obtain ⟨met, hrevise, -⟩ := revise_removeJudge hagree allStates 0 hone false []
    fun h => Bool.noConfusion h
  have hsuccessor := hst.successor_removed state
  have hvalue : (st.removed state).value? Word.states = st.value? Word.states :=
    StartTag.value?_rewrite (StartTag.remove_states state) st
  rw [removeState, removeText_source h hremovable, hrevise, Outcome.andThen, Markup.without]
  dsimp only
  rw [(h.revise_remove hw hmany hfirst hst hnaming hblock hstays).undeclareState_source
    (first?_revise_remove hmany hfirst hst hnaming hblock hstays) hsuccessor.ready.listed.tidy
    (hsuccessor.ready.clear_states (hsuccessor.declaring hdeclaring)) fun value hvalue' hentries _ _ _ =>
      hsolid value (hvalue ▸ hvalue') hentries]
  rfl

omit hdeclaring in
/-- **The elements of a document without a state** are those that stay, as `keep`
and `keep'` say before and after. -/
theorem Document.forall₂_without {keep keep' : Bool → Tag → Bool} (hdeclaring : st.Declaring)
    (hkeeps : Keeps d keep keep' (RemovedContent state) (eachRemoveJudge d state allStates) w)
    (hroot : keep' false (alone ((st.removed state).rewrite (.shorten Word.states state)).content) =
      keep' false (alone (st.removed state).content)) :
    List.Forall₂ (fun p p' => RemovedSpot state (p.map elementOf) (p'.map elementOf))
      (w.spots d keep false 0) ((w.without d state allStates).spots d keep' false 0) := by
  have hsuccessor := hst.successor_removed state
  have hsuccessor' := hsuccessor.ready.successor_shorten (hsuccessor.declaring hdeclaring) state
  have hblock' : d.isBlock (st.removed state).content = false := by
    rw [hsuccessor.isBlock hst, hblock]
  rw [without_eq hmany hfirst hst hnaming hblock hstays]
  have hspots : List.Forall₂ (fun p p' => SpotRel
      (if p.level = 0 then RemovedRoot state else RemovedContent state) p p') (w.spots d keep false 0)
      (((w.revise (eachRemoveJudge d state allStates) () []).2.setFirst
        ((st.removed state).rewrite (.shorten Word.states state)).content).spots d keep' false 0) := by
    refine (h.revise_remove hw hmany hfirst hst hnaming hblock hstays).single.forall₂_setFirst_root
      (first?_revise_remove hmany hfirst hst hnaming hblock hstays)
      (forall₂_spots_revise hkeeps () [] 0) (hsuccessor'.isBlock hsuccessor.ready d)
      (by rw [hblock', hroot]) fun old hold => ?_
    rw [RemovedContent, hblock', if_neg (by decide)] at hold
    rw [RemovedRoot, hblock',
      hsuccessor.ready.elementOf_shorten (hsuccessor.declaring hdeclaring) state, hold]
    rfl
  refine hspots.imp fun p p' hp => ?_
  have hrelated := hp.related
  have heq : elementOf p'.element =
      ((elementOf p.element).1, removedAt state p.level p.inside (elementOf p.element).2) := by
    by_cases hlevel : p.level = 0
    · rw [if_pos hlevel] at hrelated
      rw [hlevel]
      exact hrelated
    · rw [if_neg hlevel, RemovedContent] at hrelated
      rw [hrelated, removedAt, if_neg hlevel]
      cases p.inside <;> rfl
  have hparts := Prod.ext_iff.mp heq
  exact ⟨hp.level, hp.inside, hparts.1, hparts.2⟩

end

end Markup

/-! ## What goes with a state -/

/-- A list of states does not go from behind a name that ends in a blank. -/
def Tag.Firm (name state : Text) (x : Tag) : Prop :=
  ∀ value ∈ x.head.value? name, StateList.entries value = [state] →
    x.name.getLast? ≠ some '\u1680'

/-- A list has a state once. -/
def Tag.Once (name state : Text) (x : Tag) : Prop :=
  ∀ value ∈ x.head.value? name, (StateList.entries value).count state ≤ 1

instance (name state : Text) (x : Tag) : Decidable (x.Firm name state) :=
  inferInstanceAs (Decidable (∀ value ∈ x.head.value? name, StateList.entries value = [state] →
    x.name.getLast? ≠ some '\u1680'))

instance (name state : Text) (x : Tag) : Decidable (x.Once name state) :=
  inferInstanceAs (Decidable (∀ value ∈ x.head.value? name,
    (StateList.entries value).count state ≤ 1))

/-- A tree in which it is clear what belongs to a state. -/
structure ClearCut (d : Dialect) (state : Text) (root : Tag) : Prop where
  /-- One element at most declares the state. -/
  declared : ((root.spots d everything false 0).filter fun p =>
    !p.inside && d.declares state p.element.element).length ≤ 1
  decisive : ∀ x ∈ root.preorder, (Membership.ofTag x).Decisive d
  once : ∀ x ∈ root.preorder, x.Once Word.includeIn state ∧ x.Once Word.excludeFrom state
  states : root.Once Word.states state
  root : root.localName ≠ d.declarations ∧ root.localName ≠ d.state ∧
    root.head.value? Word.includeIn = none ∧ root.head.value? Word.excludeFrom = none

instance (d : Dialect) (state : Text) (root : Tag) : Decidable (ClearCut d state root) :=
  decidable_of_iff
    (((root.spots d everything false 0).filter fun p =>
        !p.inside && d.declares state p.element.element).length ≤ 1 ∧
      (∀ x ∈ root.preorder, (Membership.ofTag x).Decisive d) ∧
      (∀ x ∈ root.preorder, x.Once Word.includeIn state ∧ x.Once Word.excludeFrom state) ∧
      root.Once Word.states state ∧
      root.localName ≠ d.declarations ∧ root.localName ≠ d.state ∧
        root.head.value? Word.includeIn = none ∧ root.head.value? Word.excludeFrom = none)
    ⟨fun ⟨h₁, h₂, h₃, h₄, h₅⟩ => ⟨h₁, h₂, h₃, h₄, h₅⟩, fun ⟨h₁, h₂, h₃, h₄, h₅⟩ => ⟨h₁, h₂, h₃, h₄, h₅⟩⟩

/-- Keeps what shows in a state, but for the declaration of another state. -/
def showsBut (d : Dialect) (other state : Text) : Bool → Tag → Bool := fun inside x =>
  x.isVisible d (some other) && (inside || !d.declares state x.element)

/-- Keeps what shows in a state. -/
def shows (d : Dialect) (other : Text) : Bool → Tag → Bool := fun _ x =>
  x.isVisible d (some other)

/-- Keeps what does not go with a state. -/
def staysWithout (d : Dialect) (state : Text) (allStates : List Text) : Bool → Tag → Bool :=
  fun inside x => inside || !Markup.goesWith d state allStates x.element

section

variable {t state other : Text} {root : Tag} {d : Dialect} {allStates : List Text} {w : Markup}
  {selfClosing : Bool} {st : StartTag}

theorem Markup.element_alone (content : Text) : (alone content).element = elementOf content :=
  element_ofContent _ _ _ _

/-- A state can be removed where its lists are firm. -/
theorem removing_of_firm (h : ∀ x ∈ root.preorder, x.Firm Word.excludeFrom state) (hw : w.Document)
    (hready : w.Ready)
    (htags : w.tags [] = [root.bare]) (hnames : NamesStates d w.source) : w.Removing d state := by
  intro selfClosing content hmem
  obtain ⟨st, rfl, hst⟩ := hready selfClosing content hmem
  obtain ⟨x, hx, helement⟩ := Markup.exists_preorder htags hmem
  refine ⟨st, rfl, hst, ⟨hst.listed, fun value hvalue hentries _ _ _ => ?_⟩,
    hw.naming hst hnames hmem⟩
  have hfirm := h x hx value
    (by rw [Tag.value?_eq, show x.entries = _ from congrArg Prod.snd helement, hst.valueIn?_eq rfl,
          hvalue]; rfl)
    hentries
  rw [show x.name = _ from congrArg Prod.fst helement, hst.elementOf_fst] at hfirm
  exact hst.listed.tidy.solid hfirm

theorem ClearCut.length_declarations (h : ClearCut d state root)
    (htags : w.tags [] = [root.bare]) : (Markup.declarations d state false 0 w).length ≤ 1 := by
  have hmap := congrArg (List.filter fun p : Spot (Text × List (Text × Text)) =>
    !p.inside && d.declares state p.element)
    (Markup.element_spots_of_tags (d := d) respects_everything htags)
  rw [List.filter_map, List.filter_map] at hmap
  have hlength := congrArg List.length hmap
  rw [List.length_map, List.length_map] at hlength
  exact hlength ▸ h.declared

/-- What shows in another state shows in it without the state. -/
theorem shows_removed {content content' : Text} (hother : other ≠ []) (hne : other ≠ state)
    (hnodup : ((elementOf content).2.map Prod.fst).Nodup)
    (hstays : Markup.goesWith d state allStates (elementOf content) = false)
    (helement : elementOf content' = removedElement state (elementOf content)) :
    shows d other false (Markup.alone content') =
      showsBut d other state false (Markup.alone content) := by
  rw [Markup.goesWith, Bool.or_eq_false_iff] at hstays
  rw [shows, showsBut, Tag.isVisible_eq hother, Tag.isVisible_eq hother, Markup.element_alone,
    Markup.element_alone, helement, hstays.1,
    (sheds_removedElement hnodup).visibleIn_eq hne hstays.2]
  simp

/-- What goes with a state shows in no other one, but for its declaration. -/
theorem showsBut_eq_false {content : Text} (hother : other ≠ []) (hne : other ≠ state)
    (hmem : other ∈ allStates)
    (hdecisive : (Membership.ofElement (elementOf content)).Decisive d)
    (hgoes : Markup.goesWith d state allStates (elementOf content) = true) :
    showsBut d other state false (Markup.alone content) = false := by
  rw [Markup.goesWith, Bool.or_eq_true] at hgoes
  rw [showsBut, Tag.isVisible_eq hother, Markup.element_alone]
  rcases hgoes with hdeclares | hleft
  · simp [hdeclares]
  · rw [visibleIn_eq_false_of_isLeftOut hdecisive hne hmem hleft, Bool.false_and]

/-- The list of a document's states does not decide where its root shows. -/
theorem shows_shorten (hother : other ≠ []) (hst : st.Ready) (hdeclaring : st.Declaring)
    (state : Text) (inside : Bool) :
    shows d other inside (Markup.alone (st.rewrite (.shorten Word.states state)).content) =
      shows d other inside (Markup.alone st.content) := by
  have hvalue : ∀ {name : Text}, name ≠ Word.states →
      valueIn? name ((elementOf st.content).2.filterMap (ValueEdit.shorten Word.states state).entry) =
        valueIn? name (elementOf st.content).2 := by
    intro name hname
    rw [valueIn?_filterMap hst.nodup_elementOf]
    have hsome : ValueEdit.shorten Word.states state name = some := by
      funext value
      rw [ValueEdit.shorten, if_neg fun hand => hname hand.1]
    rw [hsome, Option.bind_fun_some]
  rw [shows, shows, Tag.isVisible_eq hother, Tag.isVisible_eq hother, Markup.element_alone,
    Markup.element_alone, hst.elementOf_shorten hdeclaring, Membership.ofElement,
    Membership.ofElement, hvalue (by decide), hvalue (by decide)]

theorem respects_showsBut (hother : other ≠ []) (state : Text) :
    Tag.Respects (showsBut d other state) := by
  intro inside x y helement
  rw [showsBut, showsBut, Tag.isVisible_eq hother, Tag.isVisible_eq hother, helement]

theorem respects_shows (hother : other ≠ []) : Tag.Respects (shows d other) := by
  intro inside x y helement
  rw [shows, shows, Tag.isVisible_eq hother, Tag.isVisible_eq hother, helement]

/-- What shows in another state keeps its place. -/
theorem ClearCut.keeps_shows (h : ClearCut d state root) (hready : w.Ready)
    (htags : w.tags [] = [root.bare]) (hremoving : w.Removing d state) (hmany : 2 ≤ allStates.length)
    (hother : other ≠ []) (hne : other ≠ state) (hmem : other ∈ allStates) :
    Markup.Keeps d (showsBut d other state) (shows d other) (Markup.RemovedContent state)
      (Markup.eachRemoveJudge d state allStates) w := by
  refine hremoving.keeps hmany (fun content => by simp [shows, showsBut]) ?_ ?_
  · intro selfClosing content hevent hgoes
    obtain ⟨x, hx, helement⟩ := Markup.exists_preorder htags hevent
    have hdecisive := h.decisive x hx
    rw [Membership.ofTag_eq, helement] at hdecisive
    exact showsBut_eq_false hother hne hmem hdecisive hgoes
  · intro selfClosing content content' hevent hstays helement
    obtain ⟨st, rfl, hst⟩ := hready selfClosing content hevent
    exact shows_removed hother hne hst.nodup_elementOf hstays helement

/-- What does not go keeps its place. -/
theorem Markup.Removing.keeps_stays (hremoving : w.Removing d state) (hmany : 2 ≤ allStates.length) :
    Keeps d (staysWithout d state allStates) everything (RemovedContent state)
      (eachRemoveJudge d state allStates) w := by
  refine hremoving.keeps hmany (fun content => rfl) ?_ ?_
  · intro selfClosing content _ hgoes
    rw [staysWithout, element_alone, hgoes]
    rfl
  · intro selfClosing content content' _ hstays _
    rw [staysWithout, element_alone, hstays]
    rfl

/-- The root does not go with a state. -/
theorem ClearCut.root_stays (h : ClearCut d state root) (hst : st.Ready)
    (helement : root.element = elementOf st.content) (allStates : List Text) :
    d.isBlock st.content = false ∧
      Markup.goesWith d state allStates (elementOf st.content) = false := by
  obtain ⟨hdeclarations, hstateElement, hincludeIn, hexcludeFrom⟩ := h.root
  have hentries : root.entries = (elementOf st.content).2 := congrArg Prod.snd helement
  have hlocal : root.localName = localOf (elementOf st.content).1 :=
    congrArg localOf (congrArg Prod.fst helement)
  rw [Tag.value?_eq, hentries] at hincludeIn hexcludeFrom
  rw [hlocal] at hdeclarations hstateElement
  constructor
  · rw [hst.listed.tidy.regular.isBlock_content, ← hst.elementOf_fst]
    simpa using hdeclarations
  · rw [Markup.goesWith, hincludeIn, hexcludeFrom, Dialect.declares]
    simp [hstateElement, isLeftOut]

/-- The list of states on the root can go with its last state. -/
theorem ClearCut.root_solid (h : ClearCut d state root) (hfirm : root.Firm Word.states state)
    (hst : st.Ready) (hdeclaring : st.Declaring)
    (helement : root.element = elementOf st.content) :
    (∀ value ∈ valueIn? Word.states (elementOf st.content).2,
        (StateList.entries value).count state ≤ 1) ∧
      ∀ value, st.value? Word.states = some value → StateList.entries value = [state] →
        st.Solid := by
  have honce := h.states
  have hentries : root.entries = (elementOf st.content).2 := congrArg Prod.snd helement
  have hname : root.name = st.name := (congrArg Prod.fst helement).trans hst.elementOf_fst
  rw [Tag.Once, Tag.value?_eq, hentries] at honce
  rw [Tag.Firm, Tag.value?_eq, hentries, hst.valueIn?_of_plain fun p hp hp' =>
    (isListText_iff.mp (hdeclaring p hp hp')).1, hname] at hfirm
  exact ⟨honce, fun value hvalue hlist => hst.listed.tidy.solid (hfirm value hvalue hlist)⟩

/-- An element that does not go has nothing to do with the state afterwards. -/
theorem ClearCut.withoutState (h : ClearCut d state root) (hsingle : w.Single) (hready : w.Ready)
    (htags : w.tags [] = [root.bare]) {content : Text}
    (hfirst : w.first? = some (selfClosing, content)) (hblock : d.isBlock content = false)
    (honce : ∀ value ∈ valueIn? Word.states (elementOf content).2,
      (StateList.entries value).count state ≤ 1)
    {p p' : Spot Text} (hp : p ∈ w.spots d (staysWithout d state allStates) false 0)
    (hspot : RemovedSpot state (p.map elementOf) (p'.map elementOf)) :
    WithoutState d state (p'.map elementOf) := by
  obtain ⟨selfClosing', hevent⟩ := Markup.mem_events_of_mem_spots hp
  obtain ⟨st, hcontent, hst⟩ := hready selfClosing' p.element hevent
  obtain ⟨x, hx, helement⟩ := Markup.exists_preorder htags hevent
  have hnodup : ((elementOf p.element).2.map Prod.fst).Nodup := hcontent ▸ hst.nodup_elementOf
  have hkeep := Markup.keep_of_mem_spots hp
  rw [staysWithout, Markup.element_alone] at hkeep
  refine hspot.withoutState (fun hlevel => ?_) hnodup (fun hinside => ?_) (fun e he hlist => ?_)
    fun hlevel => ?_
  · exact (hsingle.root_of_mem_spots hfirst hp hlevel).1.trans hblock
  · have hout : p.inside = false := hinside
    rw [hout, Bool.false_or, Bool.not_eq_true', Markup.goesWith, Bool.or_eq_false_iff] at hkeep
    exact hkeep.1
  · have hvalue : x.head.value? e.1 = some e.2 := by
      rw [Tag.value?_eq, show x.entries = _ from congrArg Prod.snd helement]
      exact valueIn?_of_mem hnodup he
    have hlists := h.once x hx
    rw [Word.isStateList, Bool.or_eq_true, beq_iff_eq, beq_iff_eq] at hlist
    rcases hlist with hname | hname
    · exact hlists.1 _ (hname ▸ hvalue)
    · exact hlists.2 _ (hname ▸ hvalue)
  · have hroot := (hsingle.root_of_mem_spots hfirst hp hlevel).2
    exact fun value hvalue => honce value (hroot ▸ hvalue)

end

/-- **A removed state leaves the others as they were.** -/
theorem visible_of_removeState {t state : Text} {root : Tag} {d : Dialect} {allStates : List Text}
    (h : Editable t root) (hdoctype : NoDoctype t) (hparse : parseStrict t = .ok root)
    (hnames : NamesStates d t) (hclear : ClearCut d state root)
    (hfirm : ∀ x ∈ root.preorder, x.Firm Word.excludeFrom state)
    (hfirmRoot : root.Firm Word.states state)
    (hstates : ∀ s ∈ allStates, isStateName s = true) (hmany : 2 ≤ allStates.length) :
    (removeState d state allStates t).complete = true ∧
      ∃ root', parseStrict (removeState d state allStates t).text = .ok root' ∧
        (∀ other ∈ allStates, other ≠ state → List.Forall₂
          (fun p p' => RemovedSpot state (p.map Tag.element) (p'.map Tag.element))
          (root.spots d (showsBut d other state) false 0)
          (root'.spots d (shows d other) false 0)) ∧
        ∀ p ∈ root'.spots d everything false 0, WithoutState d state (p.map Tag.element) := by
  obtain ⟨w, hsource, hw, htags⟩ := h.exists_markup hdoctype hparse
  have hready := h.ready hw hsource htags
  obtain ⟨selfClosing, st, hfirst, hst, hdeclaring⟩ := h.exists_declaring hw hsource htags
  subst hsource
  have helement : root.element = elementOf st.content := Markup.element_of_first hfirst htags
  have hremoving := removing_of_firm hfirm hw hready htags hnames
  have hnaming := hw.naming hst hnames (Markup.mem_events_of_first hfirst)
  obtain ⟨hblock, hstays⟩ := hclear.root_stays hst helement allStates
  obtain ⟨honce, hsolid⟩ := hclear.root_solid hfirmRoot hst hdeclaring helement
  have hdocument := hw.without hremoving hmany hfirst hst hnaming hblock hstays hdeclaring
  obtain ⟨root', hparse', htags'⟩ := hdocument.exists_parseStrict
  rw [hw.removeState_source hremoving hmany hfirst hst hnaming hblock hstays hdeclaring
    (hclear.length_declarations htags) hsolid]
  refine ⟨rfl, root', hparse', fun other hmem hother => ?_, ?_⟩
  · have hne : other ≠ [] := ne_nil_of_isStateName (hstates other hmem)
    have hsuccessor := hst.successor_removed state
    have hspots := hw.forall₂_without hremoving hmany hfirst hst hnaming hblock hstays hdeclaring
      (hclear.keeps_shows hready htags hremoving hmany hne hother hmem)
      (shows_shorten hne hsuccessor.ready (hsuccessor.declaring hdeclaring) state false)
    exact Markup.forall₂_spots_of_tags (R := RemovedSpot state) (respects_showsBut hne state)
      (respects_shows hne) htags htags' hspots
  · have hspots := hw.forall₂_without hremoving hmany hfirst hst hnaming hblock hstays hdeclaring
      (hremoving.keeps_stays hmany) rfl
    intro p hp
    have hmem : p.map Tag.element ∈
        ((w.without d state allStates).spots d everything false 0).map (Spot.map elementOf) := by
      rw [← Markup.element_spots_of_tags respects_everything htags']
      exact List.mem_map_of_mem hp
    obtain ⟨q, hq, heq⟩ := List.mem_map.mp hmem
    rw [← heq]
    exact forall_mem_of_forall₂ hspots
      (fun p hp p' hspot => hclear.withoutState hw.single hready htags hfirst hblock honce hp hspot) q hq

/-- A declaration of the state, an element in two states with an attribute for one
of them, an element that goes with what is in it, and a block of declarations. -/
theorem visible_of_removeState_held :
    let t := "<e:Skin states='up,x'><State name=' x'/><a includeIn=' x,up' y.x='&lt;'/>
      <b excludeFrom='up'><c/></b><Declarations includeIn='x'/></e:Skin>".toList
    let up := ['u', 'p']
    let x := ['x']
    let removed := removeState Dialect.standard x [up, x] t
    ∃ root, (Editable t root ∧ NoDoctype t ∧ parseStrict t = .ok root ∧
        NamesStates Dialect.standard t ∧ ClearCut Dialect.standard x root ∧
        (∀ y ∈ root.preorder, y.Firm Word.excludeFrom x) ∧ root.Firm Word.states x ∧
        ∀ s ∈ [up, x], isStateName s = true) ∧
      removed.complete = true ∧ ∃ root', parseStrict removed.text = .ok root' ∧
        (∀ other ∈ [up, x], other ≠ x → List.Forall₂
          (fun p p' => RemovedSpot x (p.map Tag.element) (p'.map Tag.element))
          (root.spots Dialect.standard (showsBut Dialect.standard other x) false 0)
          (root'.spots Dialect.standard (shows Dialect.standard other) false 0)) ∧
        ∀ p ∈ root'.spots Dialect.standard everything false 0,
          WithoutState Dialect.standard x (p.map Tag.element) := by
  intro t up x removed
  have hstates : ∀ s ∈ [up, x], isStateName s = true := List.all_eq_true.mp (by decide)
  have hany : ((parseStrict t).toOption.any fun root => decide (Editable t root) &&
      decide (NoDoctype t) && decide (NamesStates Dialect.standard t) &&
      decide (ClearCut Dialect.standard x root) &&
      decide (∀ y ∈ root.preorder, y.Firm Word.excludeFrom x) &&
      decide (root.Firm Word.states x)) = true := by
    decide +kernel
  obtain ⟨root, hparse, hproperties⟩ := exists_of_any_toOption hany
  simp only [Bool.and_eq_true, decide_eq_true_eq] at hproperties
  obtain ⟨⟨⟨⟨⟨heditable, hdoctype⟩, hnames⟩, hclear⟩, hfirm⟩, hfirmRoot⟩ := hproperties
  exact ⟨root, ⟨heditable, hdoctype, hparse, hnames, hclear, hfirm, hfirmRoot, hstates⟩,
    visible_of_removeState heditable hdoctype hparse hnames hclear hfirm hfirmRoot hstates (by decide)⟩

/-- The names of the elements that show in a state. -/
def shownNames (d : Dialect) (state t : Text) : Option (List Text) :=
  (parseStrict t).toOption.map fun root =>
    (root.spots d (shows d state) false 0).map fun p => p.element.name

/-- A document type declaration in lower case can hide the root from the scan. The
declaration of a state goes with the state, though it shows in every state. A list
that goes from behind a name that ends in a blank takes the blank with it. -/
theorem not_visible_of_removeState :
    let hidden := "<!doctype x <<a></b>>><r/>".toList
    let declared := "<Skin><State name='s'/></Skin>".toList
    let blank := "<Skin><R\u1680 excludeFrom='s'/></Skin>".toList
    let states := [['s'], ['t']]
    (∀ t ∈ [hidden, declared, blank], containsWord "<!DOCTYPE".toList t = false ∧
        ∃ root, parseStrict t = .ok root ∧ Editable t root ∧ NamesStates Dialect.standard t ∧
          ClearCut Dialect.standard ['s'] root) ∧
      (∀ s ∈ states, isStateName s = true) ∧
      (removeState Dialect.standard ['s'] states hidden).complete = false ∧
      ∀ t ∈ [declared, blank],
        shownNames Dialect.standard ['t'] (removeState Dialect.standard ['s'] states t).text ≠
          shownNames Dialect.standard ['t'] t := by
  intro hidden declared blank states
  have hall : ([hidden, declared, blank].all fun t => !containsWord "<!DOCTYPE".toList t &&
      (parseStrict t).toOption.any fun root => decide (Editable t root) &&
        decide (NamesStates Dialect.standard t) && decide (ClearCut Dialect.standard ['s'] root)) =
      true := by
    decide +kernel
  have hoff : ((removeState Dialect.standard ['s'] states hidden).complete = false ∧
      ∀ t ∈ [declared, blank],
        shownNames Dialect.standard ['t'] (removeState Dialect.standard ['s'] states t).text ≠
          shownNames Dialect.standard ['t'] t) := by
    decide +kernel
  refine ⟨fun t ht => ?_, List.all_eq_true.mp (by decide), hoff⟩
  have htext := List.all_eq_true.mp hall t ht
  rw [Bool.and_eq_true, Bool.not_eq_true'] at htext
  obtain ⟨root, hparse, hproperties⟩ := exists_of_any_toOption htext.2
  simp only [Bool.and_eq_true, decide_eq_true_eq] at hproperties
  exact ⟨htext.1, root, hparse, hproperties.1.1, hproperties.1.2, hproperties.2⟩

end SkinMarkup
