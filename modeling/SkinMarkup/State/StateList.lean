import SkinMarkup.TagText.ValueSlot

/-!
# Lists of states

A list of states is written with commas. Blanks around an entry do not count
and empty entries are no entries. The functions below change such a list
where it stands, as the value of an attribute in the text of a tag; `none`
means that there is nothing to change.
-/

namespace SkinMarkup

/-- Applies an edit to a tag's text where there is something to change. -/
def editOr (edit : Text → Option Text) (tag : Text) : Text :=
  (edit tag).getD tag

namespace StateList

/-- The states in a written list. -/
def entries (value : Text) : List Text :=
  ((partsAt ',' value).map trim).filter (· ≠ [])

/-- A list of states as it is written. -/
def render (states : List Text) : Text :=
  joinWith ',' states

/-- Adds a state to the list in the attribute `name`, if the list has not got
it and `condition` holds of the list. -/
def extend (name state : Text) (condition : List Text → Bool) (tag : Text) : Option Text := do
  let slot ← ValueSlot.find? name tag
  let states := entries slot.value
  if states.contains state || !condition states then
    none
  else
    some (slot.replace (render (states ++ [state])))

/-- Renames a state in the list in the attribute `name`. -/
def rename (name old new : Text) (tag : Text) : Option Text := do
  let slot ← ValueSlot.find? name tag
  let states := entries slot.value
  if states.contains old then
    some (slot.replace (render (states.map fun s => if s = old then new else s)))
  else
    none

/-- Drops the first entry for a state from the list in a slot. A list without
entries goes together with its attribute. -/
def drop (slot : ValueSlot) (state : Text) : Text :=
  match (entries slot.value).erase state with
  | [] => slot.remove
  | states => slot.replace (render states)

end StateList

/-- The part before the dot in the name of an attribute that applies to one
state, such as `width` in `width.down`. -/
def stemFor? (state name : Text) : Option Text :=
  (before? ('.' :: state) name).filter (· ≠ [])

end SkinMarkup
