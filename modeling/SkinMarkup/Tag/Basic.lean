import SkinMarkup.Attribute.Basic
import SkinMarkup.Position

/-!
# The tag tree

A tag has a head, which holds what its start and end tag say and where they
stand, at most one leaf of text, and child tags. A leaf always comes before
the child tags; among the children of a tag it has index zero.

A tag is addressed by its location, the list of child indices that leads to
it from the root. A tag gets its location when it is read; `Tag.relink` writes
new locations into a tree that moves, and `Tag.descendant?` follows them.
-/

namespace SkinMarkup

/-- How the text of a leaf is written. -/
inductive LeafKind where
  | text
  | cdata
deriving DecidableEq

/-- The text inside a tag, without the blanks around it. -/
structure Leaf where
  kind : LeafKind
  content : Text
  span : Span
deriving DecidableEq

/-- What a tag says about itself. A tag reaches from `start` to `stop`, its
start tag to `startTagEnd`, and its end tag begins at `endTagStart`. -/
structure TagHead where
  name : Text
  /-- The URI that the prefix of the name is bound to. It is empty if the name
  has no prefix or the prefix is not bound. -/
  uri : Text
  attributes : List Attribute
  start : Nat
  stop : Nat
  startTagEnd : Nat
  endTagStart : Nat
  selfClosing : Bool
  line : Nat
  column : Nat
  /-- The child indices that lead from the root to the tag. -/
  location : List Nat
deriving DecidableEq

/-- An element of the tree. -/
structure Tag where
  head : TagHead
  leaf : Option Leaf
  tags : List Tag

namespace TagHead

/-- The head of a tag that stands nowhere in a document. -/
def unplaced (name : Text) : TagHead :=
  { name, uri := [], attributes := [], start := 0, stop := 0, startTagEnd := 0, endTagStart := 0,
    selfClosing := false, line := 0, column := 0, location := [] }

/-- The namespaces that a tag's attributes declare. -/
def declarations (h : TagHead) : List Namespace :=
  Attribute.declarations h.attributes

/-- The value of an attribute. -/
def value? (h : TagHead) (name : Text) : Option Text :=
  (Attribute.find? name h.attributes).map (·.value)

end TagHead

namespace Tag

/-- A tag with a name and nothing else, which stands nowhere in a document. -/
def unplaced (name : Text) : Tag :=
  ⟨TagHead.unplaced name, none, []⟩

def name (t : Tag) : Text :=
  t.head.name

/-- The name of a tag without its prefix. -/
def localName (t : Tag) : Text :=
  localOf t.head.name

/-- The text of a tag. -/
def text? (t : Tag) : Option Text :=
  t.leaf.map (·.content)

def span (t : Tag) : Span :=
  ⟨t.head.start, t.head.stop⟩

/-- The namespace that a tag's own name belongs to. -/
def binding (t : Tag) : Namespace :=
  ⟨(prefixOf t.head.name).getD [], t.head.uri⟩

/-- The child tags with a local name and a namespace. -/
def childrenNamed (localName uri : Text) (t : Tag) : List Tag :=
  t.tags.filter fun child => child.localName = localName && child.head.uri = uri

/-- The number of children that come before the child tags. -/
def leafCount (t : Tag) : Nat :=
  if t.leaf.isSome then 1 else 0

/-- The number of children, the leaf included. -/
def childCount (t : Tag) : Nat :=
  t.leafCount + t.tags.length

/-- The child tag with an index. The leaf is no tag. -/
def child? (t : Tag) (index : Nat) : Option Tag :=
  if index < t.leafCount then none else t.tags[index - t.leafCount]?

/-- The tag at a location below a tag. -/
def descendant? (t : Tag) : List Nat → Option Tag
  | [] => some t
  | index :: rest =>
    match t.child? index with
    | some child => child.descendant? rest
    | none => none

/-- The tag whose child a tag is, in the tree of `root`. -/
def parent? (root t : Tag) : Option Tag :=
  if t.head.location = [] then none else root.descendant? t.head.location.dropLast

/-- Changes the tag at a location below a tag. Nothing changes if there is no
tag. -/
def modifyAt (f : Tag → Tag) (t : Tag) : List Nat → Tag
  | [] => f t
  | index :: rest =>
    match t.child? index with
    | some child => { t with tags := t.tags.set (index - t.leafCount) (child.modifyAt f rest) }
    | none => t

/-- Changes the attributes of a tag. -/
def mapAttributes (f : List Attribute → List Attribute) (t : Tag) : Tag :=
  { t with head := { t.head with attributes := f t.head.attributes } }

/-- Adds a tag after the other children. -/
def push (t child : Tag) : Tag :=
  { t with tags := t.tags ++ [child] }

mutual

/-- A tag and all tags below it, each before its children. -/
def preorder : Tag → List Tag
  | ⟨head, leaf, tags⟩ => ⟨head, leaf, tags⟩ :: preorderAll tags

/-- The tags of a list and all tags below them. -/
def preorderAll : List Tag → List Tag
  | [] => []
  | t :: ts => preorder t ++ preorderAll ts

end

mutual

/-- Writes a location into a tag and the locations that follow from it into
the tags below. -/
def relink (location : List Nat) : Tag → Tag
  | ⟨head, leaf, tags⟩ =>
    let first := if leaf.isSome then 1 else 0
    ⟨{ head with location }, leaf, relinkAll location first tags⟩

/-- Writes locations into the child tags of the tag at `parent`, the first of
which has an index. -/
def relinkAll (parent : List Nat) (index : Nat) : List Tag → List Tag
  | [] => []
  | t :: ts => relink (parent ++ [index]) t :: relinkAll parent (index + 1) ts

end

@[simp]
theorem relink_head (location : List Nat) (t : Tag) :
    (t.relink location).head = { t.head with location } := by
  cases t
  rw [relink]

theorem relink_tags (location : List Nat) (t : Tag) :
    (t.relink location).tags = relinkAll location t.leafCount t.tags := by
  cases t
  rw [relink, leafCount]

end Tag

end SkinMarkup
