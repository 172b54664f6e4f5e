import SkinMarkup.Document.Builder

/-!
# The children of a tag as one list

A tag keeps its leaf apart from its child tags. Seen as one list, the leaf is a child
among the others: the indices of `Tag.child?` and the number `Tag.childCount` are those
of `Tag.children`. Text is added only to a tag whose list is empty
(`Builder.attachLeaf_cons`), and tags are added at the end, so a leaf is the first child
and its content is the text of the tag (`Tag.textFirst`).
-/

namespace SkinMarkup

/-- A child of a tag. -/
inductive Child where
  | leaf (leaf : Leaf)
  | tag (tag : Tag)

namespace Child

/-- The tag that a child is, unless it is a leaf. -/
def tag? : Child → Option Tag
  | .leaf _ => none
  | .tag t => some t

def span : Child → Span
  | .leaf l => l.span
  | .tag t => t.span

end Child

namespace Tag

/-- The children of a tag in their order. -/
def children (t : Tag) : List Child :=
  (t.leaf.map Child.leaf).toList ++ t.tags.map Child.tag

variable {t child : Tag} {leaf : Leaf}

theorem length_children (t : Tag) : t.children.length = t.childCount := by
  cases hleaf : t.leaf <;> simp [children, childCount, leafCount, hleaf, Nat.add_comm]

theorem child?_eq (t : Tag) (index : Nat) : t.child? index = t.children[index]?.bind Child.tag? := by
  have htags : ∀ k : Nat, (t.tags.map Child.tag)[k]?.bind Child.tag? = t.tags[k]? := by
    intro k
    rw [List.getElem?_map]
    cases t.tags[k]? <;> rfl
  unfold child? children leafCount
  cases hleaf : t.leaf with
  | none => exact (htags index).symm
  | some leaf =>
    cases index with
    | zero => rfl
    | succ k => exact (htags k).symm

/-- A new child tag comes behind all other children. -/
theorem children_push (t child : Tag) : (t.push child).children = t.children ++ [.tag child] := by
  rw [children, children, push, List.map_append, List.append_assoc]
  rfl

theorem children_eq_nil_iff : t.children = [] ↔ t.childCount = 0 := by
  rw [← length_children, List.length_eq_zero_iff]

theorem tags_eq_nil_of_childCount (h : t.childCount = 0) : t.tags = [] := by
  rw [childCount] at h
  exact List.eq_nil_of_length_eq_zero (by omega)

theorem children_withLeaf (h : t.childCount = 0) (leaf : Leaf) :
    children { t with leaf := some leaf } = [.leaf leaf] := by
  rw [children, tags_eq_nil_of_childCount h]
  rfl

theorem leaf_mem_children_iff : .leaf leaf ∈ t.children ↔ t.leaf = some leaf := by
  simp [children]

theorem tag_mem_children_iff : .tag child ∈ t.children ↔ child ∈ t.tags := by
  simp [children]

/-- A leaf is the first child, and its content is what the tag has as its text. -/
structure TextFirst (t : Tag) : Prop where
  first : ∀ index leaf, t.children[index]? = some (.leaf leaf) → index = 0
  text : ∀ content, t.text? = some content ↔ ∃ leaf, .leaf leaf ∈ t.children ∧ leaf.content = content

theorem textFirst (t : Tag) : t.TextFirst where
  first := by
    intro index leaf h
    have hnot : ∀ k : Nat, (t.tags.map Child.tag)[k]? ≠ some (.leaf leaf) := by
      intro k hk
      obtain ⟨tag, -, htag⟩ := List.mem_map.mp (List.mem_of_getElem? hk)
      cases htag
    unfold children at h
    cases hleaf : t.leaf with
    | none =>
      rw [hleaf] at h
      exact absurd h (hnot index)
    | some own =>
      rw [hleaf] at h
      cases index with
      | zero => rfl
      | succ k => exact absurd h (hnot k)
  text := by
    intro content
    simp only [text?, leaf_mem_children_iff, Option.map_eq_some_iff]

end Tag

/-! ## Adding text -/

/-- **Text sticks only to a tag that has neither children nor text yet.** There it becomes
the text and the only child. -/
theorem Builder.attachLeaf_cons {b : Builder} {tag : Tag} {others : List Tag}
    (hopened : b.opened = tag :: others) (leaf : Leaf) :
    ((tag.children ≠ [] ∨ tag.text? ≠ none ∨ leaf.content = []) ∧ b.attachLeaf leaf = b) ∨
    (tag.children = [] ∧ tag.text? = none ∧ leaf.content ≠ []) ∧
      ∃ new, b.attachLeaf leaf = { b with opened := new :: others } ∧ new.head = tag.head ∧
        new.text? = some leaf.content ∧ new.children = tag.children ++ [.leaf leaf] := by
  unfold attachLeaf
  rw [hopened]
  dsimp only
  split
  · next h =>
    obtain ⟨hcount, hcontent⟩ := h
    have hnil := Tag.children_eq_nil_iff.mpr hcount
    have htext : tag.text? = none := by
      refine Option.eq_none_iff_forall_ne_some.mpr fun content hsome => ?_
      obtain ⟨own, hmem, -⟩ := (tag.textFirst.text content).mp hsome
      rw [hnil] at hmem
      cases hmem
    refine .inr ⟨⟨hnil, htext, hcontent⟩, _, rfl, rfl, rfl, ?_⟩
    rw [Tag.children_withLeaf hcount, hnil]
    rfl
  · next h =>
    refine .inl ⟨?_, rfl⟩
    by_cases hnil : tag.children = []
    · have hcontent : leaf.content = [] := Decidable.byContradiction fun hcontent =>
        h ⟨Tag.children_eq_nil_iff.mp hnil, hcontent⟩
      exact .inr (.inr hcontent)
    · exact .inl hnil

end SkinMarkup
