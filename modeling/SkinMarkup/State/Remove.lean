import SkinMarkup.Dialect
import SkinMarkup.Edit.Revision
import SkinMarkup.State.StateList
import SkinMarkup.TagText.Basic
import SkinMarkup.Vocabulary

/-!
# Removing a state

A state goes from every list that has it, with its declaration and the
attributes that apply to it alone. An element that is left in no state goes
too. The block of declarations goes with the last state.
-/

namespace SkinMarkup

/-- Drops a state from the list on the root. -/
def undeclareState (state t : Text) : Outcome :=
  let edited := editRoot (fun root => do
    let slot ← ValueSlot.find? Word.states root.text
    if (StateList.entries slot.value).contains state then
      some (StateList.drop slot state)
    else
      none) t
  ⟨edited.getD t, true⟩

/-- A tag's text without the attributes for a state. -/
def stripAttributes (state tag : Text) : Text :=
  (TagText.ofText tag).without fun p => (stemFor? state p.name).isSome

/-- Drops a state from the states that a tag is missing from. There is no tag
left if that state was the only one it appears in. -/
def dropExcluded (state : Text) (allStates : List Text) (tag : Text) : Option Text :=
  match ValueSlot.find? Word.excludeFrom tag with
  | none => some tag
  | some slot =>
    let excluded := StateList.entries slot.value
    if excluded.contains state then
      some (StateList.drop slot state)
    else if allStates.filter (!excluded.contains ·) = [state] then
      none
    else
      some tag

/-- Drops a state from the states that a tag appears in. There is no tag left
if it was the only one. -/
def dropIncluded (state tag : Text) : Option Text :=
  match ValueSlot.find? Word.includeIn tag with
  | none => some tag
  | some slot =>
    let included := StateList.entries slot.value
    if included.contains state then
      match included.erase state with
      | [] => none
      | others => some (slot.replace (StateList.render others))
    else
      some tag

/-- A start tag without a state, or nothing if the element goes. -/
def removeFromTag (state : Text) (allStates : List Text) (tag : Text) : Option Text := do
  let tag ← dropExcluded state allStates tag
  let tag ← dropIncluded state tag
  return stripAttributes state tag

/-- Whether a tag's text declares a state by its name. -/
def declaresState (state tag : Text) : Bool :=
  (ValueSlot.find? Word.name tag).any fun slot => trim slot.value == state

/-- Decides about a token when a state is removed. The memory says whether
the declaration of the state has been met. -/
def removeAction (d : Dialect) (state : Text) (allStates : List Text) (met : Bool)
    (token : Token) : Bool × Action :=
  if !token.isStart then
    (met, .keep)
  else if token.localName = d.declarations then
    (met, .pass)
  else if token.localName = d.states ∧ allStates.length ≤ 1 then
    (met, .erase)
  else if !met && token.localName == d.state && declaresState state token.text then
    (true, .erase)
  else
    match removeFromTag state allStates token.text with
    | some tag => (met, .replace tag)
    | none => (met, .erase)

/-- Removes a state of a document with the states `allStates`. -/
def removeState (d : Dialect) (state : Text) (allStates : List Text) (t : Text) : Outcome :=
  (reviseText (removeAction d state allStates) false t).andThen (undeclareState state)

end SkinMarkup
