import SkinMarkup.Proofs.Attribute.Entries
import SkinMarkup.Proofs.Tag.Trail

/-!
# What a tree says, wherever it stands

A bare tree keeps the names, namespaces, attributes, leaves and children of a
tree and forgets all offsets, lines and locations. Two trees say the same if
they are bare the same.
-/

namespace SkinMarkup

/-- A leaf that stands nowhere. -/
def Leaf.bare (leaf : Leaf) : Leaf :=
  { leaf with span := ⟨0, 0⟩ }

/-- An attribute that stands nowhere. -/
def Attribute.bare (a : Attribute) : Attribute :=
  unplaced a.name a.value

/-- The attribute with a name and a value that stands nowhere. -/
def Attribute.ofEntry (entry : Text × Text) : Attribute :=
  unplaced entry.1 entry.2

/-- The head of a tag that stands nowhere. -/
def TagHead.bare (h : TagHead) : TagHead :=
  { unplaced h.name with uri := h.uri, attributes := h.attributes.map Attribute.bare }

namespace Tag

mutual

/-- A tree that stands nowhere. -/
def bare : Tag → Tag
  | ⟨head, leaf, tags⟩ => ⟨head.bare, leaf.map Leaf.bare, bareAll tags⟩

/-- Trees that stand nowhere. -/
def bareAll : List Tag → List Tag
  | [] => []
  | t :: ts => bare t :: bareAll ts

end

theorem bareAll_eq_map (ts : List Tag) : bareAll ts = ts.map bare := by
  induction ts with
  | nil => rw [bareAll, List.map_nil]
  | cons t ts ih => rw [bareAll, ih, List.map_cons]

theorem bare_eq (t : Tag) : t.bare = ⟨t.head.bare, t.leaf.map Leaf.bare, t.tags.map bare⟩ := by
  cases t
  rw [bare, bareAll_eq_map]

@[simp]
theorem bare_head (t : Tag) : t.bare.head = t.head.bare := by rw [bare_eq]

@[simp]
theorem bare_leaf (t : Tag) : t.bare.leaf = t.leaf.map Leaf.bare := by rw [bare_eq]

@[simp]
theorem bare_tags (t : Tag) : t.bare.tags = t.tags.map bare := by rw [bare_eq]

@[simp]
theorem bare_name (t : Tag) : t.bare.name = t.name := by
  rw [name, bare_head]
  rfl

@[simp]
theorem bare_localName (t : Tag) : t.bare.localName = t.localName := by
  rw [localName, bare_head]
  rfl

end Tag

/-! ## Attributes -/

@[simp]
theorem Attribute.entry_bare (a : Attribute) : a.bare.entry = a.entry := rfl

@[simp]
theorem Attribute.entry_ofEntry (entry : Text × Text) : (ofEntry entry).entry = entry := rfl

theorem Attribute.map_bare (attributes : List Attribute) :
    attributes.map bare = (attributes.map entry).map ofEntry := by
  rw [List.map_map]
  rfl

theorem Attribute.declarations_congr {attributes attributes' : List Attribute}
    (h : attributes'.map entry = attributes.map entry) :
    declarations attributes' = declarations attributes := by
  have hentry : ∀ l : List Attribute, declarations l =
      (l.map entry).filterMap fun e => (ofEntry e).declaration? := by
    intro l
    rw [List.filterMap_map]
    rfl
  rw [hentry, hentry, h]

theorem Attribute.declarations_bare (attributes : List Attribute) :
    declarations (attributes.map bare) = declarations attributes := by
  apply declarations_congr
  rw [List.map_map]
  rfl

namespace TagHead

@[simp]
theorem bare_name (h : TagHead) : h.bare.name = h.name := rfl

@[simp]
theorem declarations_bare (h : TagHead) : h.bare.declarations = h.declarations :=
  Attribute.declarations_bare h.attributes

theorem value?_congr {h h' : TagHead}
    (hentry : h'.attributes.map Attribute.entry = h.attributes.map Attribute.entry) (name : Text) :
    h'.value? name = h.value? name :=
  value_find?_congr name hentry

@[simp]
theorem value?_bare (h : TagHead) (name : Text) : h.bare.value? name = h.value? name := by
  apply value?_congr
  rw [bare, List.map_map]
  rfl

end TagHead

namespace Tag

mutual

/-- Locations are forgotten. -/
theorem bare_relink : ∀ (location : List Nat) (t : Tag), (t.relink location).bare = t.bare
  | location, ⟨head, leaf, tags⟩ => by
    rw [relink, bare, bare, bareAll_relinkAll]
    rfl

theorem bareAll_relinkAll :
    ∀ (location : List Nat) (index : Nat) (ts : List Tag),
      bareAll (relinkAll location index ts) = bareAll ts
  | _, _, [] => by rw [relinkAll]
  | location, index, t :: ts => by
    rw [relinkAll, bareAll, bareAll, bare_relink, bareAll_relinkAll]

end

/-- Induction over forests: a tag adds its children and what follows it. -/
theorem trees_induction {motive : List Tag → Prop} (nil : motive [])
    (cons : ∀ (tag : Tag) (ts : List Tag), motive tag.tags → motive ts → motive (tag :: ts)) :
    ∀ ts : List Tag, motive ts
  | [] => nil
  | ⟨_, _, tags⟩ :: ts => cons _ _ (trees_induction nil cons tags) (trees_induction nil cons ts)

/-- Everything below a bare tree is bare. -/
theorem preorderAll_map_bare (ts : List Tag) :
    preorderAll (ts.map bare) = (preorderAll ts).map bare := by
  induction ts using trees_induction with
  | nil => rfl
  | cons tag ts ihtags ihts =>
    rw [List.map_cons, preorderAll, preorderAll, preorder_eq, preorder_eq, bare_tags, ihtags, ihts,
      List.map_append, List.map_cons]

end Tag

end SkinMarkup
