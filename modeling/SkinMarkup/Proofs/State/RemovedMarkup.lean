import SkinMarkup.Proofs.State.CopiedMarkup
import SkinMarkup.Proofs.State.ShorterLists

/-!
# Documents without a state

Removing a state from a document decides about the elements of its markup:
`removeText_source`. Then the list on the root is shortened:
`undeclareState_source`.
-/

namespace SkinMarkup.Markup

variable {w : Markup} {d : Dialect} {state : Text} {allStates : List Text}

/-- Whether an element declares a state by its name. -/
def declares (d : Dialect) (state : Text) (selfClosing : Bool) (content : Text) : Bool :=
  localOf (WrittenAttribute.elementName content) == d.state &&
    declaresState state (Event.start selfClosing content).source

/-- Decides about an element when a state is removed. The memory says whether the
declaration of the state has been met. -/
def removeJudge (d : Dialect) (state : Text) (allStates : List Text) (met selfClosing : Bool)
    (content : Text) : Bool × Verdict :=
  if d.isBlock content then (met, .pass)
  else if localOf (WrittenAttribute.elementName content) = d.states ∧ allStates.length ≤ 1 then
    (met, .erase)
  else if !met && declares d state selfClosing content then (true, .erase)
  else if (StartTag.ofContent content).goes state allStates then (met, .erase)
  else (met, .write ((StartTag.ofContent content).removed state).content)

theorem follows_remove
    (hremovable : ∀ selfClosing content, Event.start selfClosing content ∈ w.events →
      ∃ st : StartTag, st.content = content ∧ st.Removable state)
    (d : Dialect) (allStates : List Text) :
    Follows (removeJudge d state allStates) (removeAction d state allStates) w := by
  constructor
  · intro met token hstart
    rw [removeAction_of_not_isStart hstart]
  · intro met selfClosing content token hmem htoken
    obtain ⟨st, rfl, hst⟩ := hremovable selfClosing content hmem
    have hstart := isStart_of_isToken selfClosing htoken
    have hname := hst.tidy.localName_of_isToken htoken
    have htext := hst.removeFromTag_text allStates selfClosing
    rw [← StartTag.source_start, ← htoken.text] at htext
    rw [removeAction, removeJudge, hst.tidy.ofContent_content, Dialect.isBlock, declares, hname,
      ← htoken.text, htext]
    simp only [hstart, Bool.not_true, Bool.false_eq_true, if_false, beq_iff_eq, Bool.and_assoc]
    split
    · rfl
    · split
      · rfl
      · split
        · rfl
        · cases st.goes state allStates with
          | true => rfl
          | false =>
            simp only [Bool.false_eq_true, if_false, Verdict.action, StartTag.source_start]

/-- **Removing a state from a document removes it from the markup,** but for the
list on the root. -/
theorem removeText_source (h : w.Document)
    (hremovable : ∀ selfClosing content, Event.start selfClosing content ∈ w.events →
      ∃ st : StartTag, st.content = content ∧ st.Removable state)
    (d : Dialect) (allStates : List Text) :
    reviseText (removeAction d state allStates) false w.source =
      ⟨(w.revise (removeJudge d state allStates) false []).2.source, true⟩ :=
  reviseText_source h.lexed h.scannable (follows_remove hremovable d allStates) false

/-! ## The list on the root -/

/-- Markup whose root has one state less. -/
def undeclared (state : Text) (w : Markup) : Markup :=
  match w.first? with
  | some (_, content) =>
    w.setFirst ((StartTag.ofContent content).rewrite (.shorten Word.states state)).content
  | none => w

section

variable {selfClosing : Bool} {st : StartTag} (hfirst : w.first? = some (selfClosing, st.content))
  (htidy : st.Tidy)

include hfirst htidy

theorem undeclared_of_first :
    w.undeclared state = w.setFirst (st.rewrite (.shorten Word.states state)).content := by
  rw [undeclared, hfirst]
  simp only [htidy.ofContent_content]

/-- **Dropping a state from the list on the root shortens it in the markup.** -/
theorem Document.undeclareState_source (h : w.Document) (hclear : st.Clear Word.states)
    (hsolid : ∀ value, st.value? Word.states = some value → StateList.entries value = [state] →
      ∀ p ∈ st.pieces.head?, p.name = Word.states → st.Solid) :
    undeclareState state w.source = ⟨(w.undeclared state).source, true⟩ := by
  rw [undeclared_of_first hfirst htidy]
  -- The list is shortened if it has the state; otherwise everything stays.
  by_cases hmem : ∃ value, st.value? Word.states = some value ∧ state ∈ StateList.entries value
  · obtain ⟨value, hvalue, hmem⟩ := hmem
    obtain ⟨slot, hfind, hslot, hdrop⟩ :=
      htidy.exists_shorter hclear hvalue hmem (hsolid value hvalue) selfClosing
    rw [undeclareState, editRoot_source h.lexed h.scannable.opens hfirst
      (some (st.rewrite (.shorten Word.states state)).content) fun token htoken => ?_]
    · rfl
    · rw [htoken.text, StartTag.source_start, hfind, Option.map_some, StartTag.source_start, ← hdrop]
      simp [hslot, hmem]
  · have hself : st.rewrite (.shorten Word.states state) = st := by
      refine StartTag.shorten_eq_self fun p hp hname hentry => hmem ⟨p.value, ?_, hentry⟩
      rw [← hname]
      exact htidy.value?_of_mem hp
    rw [hself, setFirst_eq_self hfirst, undeclareState, editRoot_source h.lexed h.scannable.opens hfirst
      none fun token htoken => ?_]
    · rfl
    · rw [htoken.text, StartTag.source_start, Option.map_none]
      cases hvalue : st.value? Word.states with
      | none =>
        rw [htidy.find?_of_value?_eq_none hclear isWord_states.nonempty isWord_states.chars hvalue]
        rfl
      | some value =>
        obtain ⟨slot, hfind, hslot, -⟩ := htidy.exists_slot hclear hvalue selfClosing
        have hnot : state ∉ StateList.entries value := fun hentry => hmem ⟨value, hvalue, hentry⟩
        simp [hfind, hslot, hnot]

end

end SkinMarkup.Markup
