import SkinMarkup.Text.Basic

/-!
# Dialects

Some element names have a meaning for the state edits: the root of a skin,
the block of declarations that is never edited, the list of states, and the
containers whose children count as children of the element around them. All
of them are compared with local names, so prefixes do not matter.
-/

namespace SkinMarkup

/-- The element names with a meaning. -/
structure Dialect where
  /-- The root of a skin, which is visible in every state. -/
  skin : Text
  /-- The prefix of elements that only an editor uses. They are visible in
  every state. -/
  workingPrefix : Text
  /-- The block that state edits leave as it is. -/
  declarations : Text
  /-- The declaration of one state. -/
  state : Text
  /-- The block of state declarations. -/
  states : Text
  /-- A container whose children count as its parent's. -/
  array : Text
  /-- Another such container. -/
  elementsContent : Text
deriving DecidableEq

namespace Dialect

/-- The names that skins use if nothing else is said. -/
def standard : Dialect where
  skin := ['S', 'k', 'i', 'n']
  workingPrefix := ['w']
  declarations :=
    ['D', 'e', 'c', 'l', 'a', 'r', 'a', 't', 'i', 'o', 'n', 's']
  state := ['S', 't', 'a', 't', 'e']
  states := ['s', 't', 'a', 't', 'e', 's']
  array := ['A', 'r', 'r', 'a', 'y']
  elementsContent :=
    ['e', 'l', 'e', 'm', 'e', 'n', 't', 's', 'C', 'o', 'n', 't', 'e', 'n', 't']

/-- Whether the children of an element count as its parent's. -/
def isContainer (d : Dialect) (localName : Text) : Bool :=
  localName == d.array || localName == d.elementsContent

end Dialect

/-- How indentation is written and measured. A width of zero, with which levels could
not be measured, is left out; `ofUnit` turns it into one. -/
structure IndentStyle where
  /-- One level of indentation. -/
  unit : Text
  /-- The number of spaces that count as one level. -/
  spacesPerLevel : Nat
  spacesPerLevel_pos : 0 < spacesPerLevel

namespace IndentStyle

/-- A style with at least one space for a level. -/
def ofUnit (unit : Text) (spacesPerLevel : Nat) : IndentStyle :=
  ⟨unit, max spacesPerLevel 1, by omega⟩

/-- A tab for each level, and two spaces for one tab. -/
def standard : IndentStyle :=
  ⟨['\t'], 2, by omega⟩

end IndentStyle

end SkinMarkup
