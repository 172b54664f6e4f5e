import SkinMarkup.Document.Parse
import SkinMarkup.Tag.Printer

/-!
# Copying a tag into another tree

A copy is made by writing the tag and reading it again, so its offsets are
those of its own text. Prefixes that the new surroundings declare are not
declared again, and the namespaces in the copy follow from the new
surroundings.
-/

namespace SkinMarkup.Tag

mutual

/-- Looks up the namespaces of a tag and of everything below it again.
`scope` holds the bindings around it, outermost first; the last binding of a
prefix counts. -/
def rebind (scope : List Namespace) : Tag → Tag
  | ⟨head, leaf, tags⟩ =>
    let scope := scope ++ head.declarations
    let uri :=
      match prefixOf head.name with
      | some p => (Namespace.uriOf? p scope.reverse).getD []
      | none => head.uri
    ⟨{ head with uri }, leaf, rebindAll scope tags⟩

/-- Looks up the namespaces of the tags in a list again. -/
def rebindAll (scope : List Namespace) : List Tag → List Tag
  | [] => []
  | t :: ts => rebind scope t :: rebindAll scope ts

end

/-- The declarations on the way from a tag to a location below it, outermost
first, if there is a tag at the location. -/
def scopeAt? (t : Tag) : List Nat → Option (List Namespace)
  | [] => some t.head.declarations
  | index :: rest =>
    match t.child? index with
    | some child => (child.scopeAt? rest).map (t.head.declarations ++ ·)
    | none => none

/-- Drops the declarations of prefixes that a scope binds. -/
def dropKnown (scope : List Namespace) (attributes : List Attribute) : List Attribute :=
  attributes.filter fun a =>
    match after? Namespace.marker a.name with
    | some p => !scope.any fun binding => binding.nsPrefix = p
    | none => true

/-- The copy of a tag that goes to a location with the given scope. -/
def adopt (scope : List Namespace) (location : List Nat) (copy : Tag) : Tag :=
  ((copy.mapAttributes (dropKnown scope)).rebind scope).relink location

/-- Adds a copy of `child` as the last child of the tag at a location below `root`.
The answer comes with the tree as it is then, which is written only in the last step.
A child that cannot be read back fails before a location without a tag does. -/
def appendChild (root : Tag) (location : List Nat) (child : Tag) :
    Except ParseFailure Unit × Tag :=
  match parseStrict child.render with
  | .error failure => (.error failure, root)
  | .ok copy =>
    match root.scopeAt? location with
    | none => (.error (.issue (.missingTag location)), root)
    | some scope =>
      match root.descendant? location with
      | none => (.error (.issue (.missingTag location)), root)
      | some parent =>
        let copy := copy.adopt scope (location ++ [parent.childCount])
        (.ok (), root.modifyAt (·.push copy) location)

/-- The tree with a copy of `child` at a location, if it can be added. -/
def append (root : Tag) (location : List Nat) (child : Tag) : Except ParseFailure Tag :=
  match root.appendChild location child with
  | (.ok (), grown) => .ok grown
  | (.error failure, _) => .error failure

end SkinMarkup.Tag
