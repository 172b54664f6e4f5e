import SkinMarkup.Dialect
import SkinMarkup.Edit.Revision
import SkinMarkup.State.StateList
import SkinMarkup.TagText.Basic
import SkinMarkup.Vocabulary

/-!
# Renaming a state

A state is renamed in its declaration, in every list that has it, in the
names of the attributes that apply to it alone, and where a document starts
in it.
-/

namespace SkinMarkup

/-- Replaces the value of an attribute that names a state and nothing else. -/
def renameValue (name old new tag : Text) : Option Text := do
  let slot ← ValueSlot.find? name tag
  if trim slot.value = old then some (slot.replace new) else none

/-- A tag's text with the attributes for a state renamed. -/
def renameAttributes (old new tag : Text) : Text :=
  (TagText.ofText tag).renamed fun name => (stemFor? old name).map (· ++ '.' :: new)

/-- A start tag in which a state is renamed. -/
def renameInTag (old new tag : Text) : Text :=
  let tag := editOr (renameValue Word.currentState old new) tag
  let tag := editOr (StateList.rename Word.includeIn old new) tag
  let tag := editOr (StateList.rename Word.excludeFrom old new) tag
  renameAttributes old new tag

/-- Decides about a token when a state is renamed. The memory says whether
the declaration of the state has been met; only the first one is renamed, and
nothing else in its tag. -/
def renameAction (d : Dialect) (old new : Text) (met : Bool) (token : Token) : Bool × Action :=
  if !token.isStart then
    (met, .keep)
  else if token.localName = d.declarations then
    (met, .pass)
  else
    let declaration :=
      if !met && token.localName == d.state then renameValue Word.name old new token.text
      else none
    match declaration with
    | some tag => (true, .replace tag)
    | none => (met, .replace (renameInTag old new token.text))

/-- Renames a state in the list on the root. -/
def redeclareState (old new t : Text) : Outcome :=
  ⟨(editRoot (fun root => StateList.rename Word.states old new root.text) t).getD t, true⟩

/-- Renames a state. -/
def renameState (d : Dialect) (old new t : Text) : Outcome :=
  (reviseText (renameAction d old new) false t).andThen (redeclareState old new)

end SkinMarkup
