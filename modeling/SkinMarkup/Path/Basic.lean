import SkinMarkup.Visibility

/-!
# Paths in a tree

A path addresses a tag by child indices, one for each depth. The first index
stands for the root. Only tags that are visible in the chosen state count, so
a tag may have another path in another state.
-/

namespace SkinMarkup

/-- The tag at the given indices below a tag. -/
def Tag.visibleDescendant? (d : Dialect) (state : Option Text) (t : Tag) : List Nat → Option Tag
  | [] => some t
  | index :: rest =>
    match (t.tags.filter (·.isVisible d state))[index]? with
    | some child => child.visibleDescendant? d state rest
    | none => none

/-- The tag at a path. The first index is not looked at, but it has to be
there. -/
def itemAt? (d : Dialect) (state : Option Text) (root : Tag) : (path : List Nat) → Option Tag
  | [] => none
  | _ :: rest => root.visibleDescendant? d state rest

end SkinMarkup
