import SkinMarkup.Namespace

/-!
# Attributes of a tag

An attribute remembers where its name starts and where its value stands
between the quotes. The attributes of a tag are a list without two equal
names, in the order in which they were written.
-/

namespace SkinMarkup

/-- A name with its value, after entity references have been replaced, and
the byte offsets at which they stand. -/
structure Attribute where
  name : Text
  value : Text
  nameStart : Nat
  start : Nat
  stop : Nat
deriving DecidableEq

namespace Attribute

/-- An attribute that stands nowhere in a document: all offsets are zero. -/
def unplaced (name value : Text) : Attribute :=
  ⟨name, value, 0, 0, 0⟩

def isUnplaced (a : Attribute) : Bool :=
  a.nameStart == 0 && a.start == 0 && a.stop == 0

/-- The namespace that an attribute declares, if it is named `xmlns` or
`xmlns:p`. -/
def declaration? (a : Attribute) : Option Namespace :=
  (Namespace.declaredBy a.name).map fun nsPrefix => ⟨nsPrefix, a.value⟩

/-- Whether an offset lies on an attribute, from the first byte of its name
to its closing quote. -/
def covers (a : Attribute) (offset : Nat) : Bool :=
  !a.isUnplaced && decide (a.nameStart ≤ offset) && decide (offset ≤ a.stop)

/-- The attribute of a name in a list. -/
def find? (name : Text) (attributes : List Attribute) : Option Attribute :=
  List.find? (fun a => a.name = name) attributes

/-- Whether a list has an attribute of a name. -/
def has (name : Text) (attributes : List Attribute) : Bool :=
  (find? name attributes).isSome

/-- Gives an attribute a value. An attribute that is already there keeps its
place in the order and its offsets; a new one goes to the end. -/
def put (name value : Text) (attributes : List Attribute) : List Attribute :=
  if has name attributes then
    attributes.map fun a => if a.name = name then { a with value } else a
  else
    attributes ++ [unplaced name value]

/-- Drops the attribute of a name and keeps the order of the others. -/
def remove (name : Text) (attributes : List Attribute) : List Attribute :=
  attributes.filter fun a => a.name ≠ name

/-- The namespaces that a list of attributes declares, in its order. -/
def declarations (attributes : List Attribute) : List Namespace :=
  attributes.filterMap declaration?

end Attribute

end SkinMarkup
