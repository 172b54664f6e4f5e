import SkinMarkup.Tag.Basic
import SkinMarkup.Text.Blank
import SkinMarkup.Vocabulary

/-!
# Questions about a tree

Which node stands at an offset, which states a document declares and in which
one it starts.
-/

namespace SkinMarkup

/-- What stands at an offset. -/
inductive Node where
  | tag (tag : Tag)
  | attr (a : Attribute)
  | leaf (leaf : Leaf)

namespace Leaf

/-- Whether an offset lies on a leaf. Both ends belong to it. -/
def covers (leaf : Leaf) (offset : Nat) : Bool :=
  decide (leaf.span.start ≤ offset) && decide (offset ≤ leaf.span.stop)

end Leaf

namespace TagHead

/-- Whether an offset lies on a tag. Both ends belong to it. -/
def covers (h : TagHead) (offset : Nat) : Bool :=
  decide (h.start ≤ offset) && decide (offset ≤ h.stop)

end TagHead

namespace Tag

/-- The leaf of a tag, if an offset lies on it. -/
def leafAt? (offset : Nat) (leaf : Option Leaf) : Option Node :=
  (leaf.filter (·.covers offset)).map .leaf

mutual

/-- The deepest node on which an offset lies. Children come before their
parent and attributes before their tag. -/
def nodeAt? (offset : Nat) : Tag → Option Node
  | ⟨head, leaf, tags⟩ =>
    if head.covers offset then
      -- A leaf that starts after the offset ends the search among the children.
      let inLeaf := leafAt? offset leaf
      let below :=
        if inLeaf.isSome || leaf.any (fun leaf => decide (offset < leaf.span.start)) then inLeaf
        else nodeAmong? offset tags
      match below with
      | some node => some node
      | none =>
        match head.attributes.find? (·.covers offset) with
        | some a => some (.attr a)
        | none => some (.tag ⟨head, leaf, tags⟩)
    else
      none

/-- The deepest node on which an offset lies, in the first tag of a list that
has one. The search ends at a tag that starts after the offset. -/
def nodeAmong? (offset : Nat) : List Tag → Option Node
  | [] => none
  | t :: ts =>
    if offset < t.head.start then
      none
    else
      match nodeAt? offset t with
      | some node => some node
      | none => nodeAmong? offset ts

end

/-- The states that the children of a root declare, in a first `states` child
of the root's namespace. -/
def statesInChildren (root : Tag) : List Text :=
  match (root.childrenNamed Word.states root.head.uri).head? with
  | none => []
  | some block =>
    (block.childrenNamed Word.state root.head.uri).filterMap fun declaration =>
      (declaration.head.value? Word.name).map trim

/-- The states that a root lists in its attribute, separated by commas. -/
def statesInAttribute (root : Tag) : List Text :=
  match root.head.value? Word.states with
  | none => []
  | some [] => []
  | some value => (partsAt ',' value).map trim

/-- The states that a root declares. Child declarations come before the
attribute. -/
def declaredStates (root : Tag) : List Text :=
  match statesInChildren root with
  | [] => statesInAttribute root
  | states => states

/-- The state that a document starts in. -/
def startState? (root : Tag) : Option Text :=
  ((root.head.value? Word.currentState).map trim).filter (· ≠ [])

end Tag

end SkinMarkup
