import SkinMarkup.Text.Basic

/-!
# Words with a meaning

Attribute and element names that every skin document uses. The names that a
dialect may choose are in `SkinMarkup.Dialect`.
-/

namespace SkinMarkup.Word

/-- The attribute that lists the states an element appears in. -/
def includeIn : Text :=
  ['i', 'n', 'c', 'l', 'u', 'd', 'e', 'I', 'n']

/-- The attribute that lists the states an element is missing from. -/
def excludeFrom : Text :=
  ['e', 'x', 'c', 'l', 'u', 'd', 'e', 'F', 'r', 'o', 'm']

/-- The root's attribute that lists the states of a document, and the element
that holds their declarations. -/
def states : Text :=
  ['s', 't', 'a', 't', 'e', 's']

/-- The element that declares one state. -/
def state : Text :=
  ['S', 't', 'a', 't', 'e']

/-- The attribute of a declaration that names its state. -/
def name : Text :=
  ['n', 'a', 'm', 'e']

/-- The root's attribute with the state that a document starts in. -/
def currentState : Text :=
  ['c', 'u', 'r', 'r', 'e', 'n', 't', 'S', 't', 'a', 't', 'e']

end SkinMarkup.Word
