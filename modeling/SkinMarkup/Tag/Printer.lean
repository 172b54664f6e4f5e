import SkinMarkup.Entity
import SkinMarkup.Tag.Basic

/-!
# Writing a tree

Every element takes a line, indented by one tab for each element around it,
with attribute values in double quotes. The text of an element without child
tags stands between its tags; other text takes a line of its own before the
child tags. A CDATA section stays one.

A fragment is a tag written so that it can be read on its own: the prefixes
that the root declares are declared on it as well.
-/

namespace SkinMarkup

namespace Leaf

/-- The text of a leaf as it is written. -/
def render (leaf : Leaf) : Text :=
  match leaf.kind with
  | .text => escape leaf.content
  | .cdata => ['<', '!', '[', 'C', 'D', 'A', 'T', 'A', '['] ++ leaf.content ++ [']', ']', '>']

end Leaf

namespace Attribute

/-- An attribute as it is written, with a space in front. -/
def render (a : Attribute) : Text :=
  ' ' :: a.name ++ ['=', '"'] ++ escape a.value ++ ['"']

end Attribute

namespace Tag

/-- The tabs at the start of a line inside `depth` elements. -/
def tabs (depth : Nat) : Text :=
  List.replicate depth '\t'

/-- The end tag of an element. -/
def renderEnd (name : Text) : Text :=
  '<' :: '/' :: name ++ ['>']

mutual

/-- Writes a tag inside `depth` elements, with `extra` attributes after its
own. -/
def renderAt (depth : Nat) (extra : List Attribute) : Tag → Text
  | ⟨head, leaf, tags⟩ =>
    let start := tabs depth ++ '<' :: head.name ++ (head.attributes ++ extra).flatMap Attribute.render
    match leaf, tags with
    | none, [] => start ++ [' ', '/', '>']
    | some leaf, [] => start ++ '>' :: leaf.render ++ renderEnd head.name
    | none, t :: ts =>
      start ++ ['>', '\n'] ++ renderLines (depth + 1) (t :: ts) ++ tabs depth ++ renderEnd head.name
    | some leaf, t :: ts =>
      start ++ ['>', '\n'] ++ (tabs (depth + 1) ++ leaf.render ++ ['\n']) ++
        renderLines (depth + 1) (t :: ts) ++ tabs depth ++ renderEnd head.name

/-- Writes tags one below the other. -/
def renderLines (depth : Nat) : List Tag → Text
  | [] => []
  | t :: ts => renderAt depth [] t ++ '\n' :: renderLines depth ts

end

/-- The text of a tag and everything below it. -/
def render (t : Tag) : Text :=
  renderAt 0 [] t

/-- The declarations of prefixes that `root` makes and `t` does not. -/
def forwarded (root t : Tag) : List Attribute :=
  root.head.attributes.filter fun a =>
    startsWith Namespace.marker a.name && !Attribute.has a.name t.head.attributes

/-- The text of a tag in the tree of `root`, with the prefixes that the root
declares. -/
def renderFragment (root t : Tag) : Text :=
  if t.head.location = [] then t.render else renderAt 0 (forwarded root t) t

end Tag

end SkinMarkup
