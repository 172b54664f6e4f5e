import SkinMarkup.Proofs.Document.Places
import SkinMarkup.Tag.Query

/-!
# The deepest node at an offset

A search for an offset goes down into the first child that reaches it and looks at
no other. Children that touch share an offset, the end of one and the start of the
next. What lies inside the second one starts behind it, so nothing is missed
(`Tag.Holds.depth_eq_zero`): the search finds a deepest node (`Tag.deepest_of_nodeAt?`),
in trees of texts with issues too (`deepest_of_parse`).
-/

namespace SkinMarkup

/-- Whether a span reaches an offset. Both of its ends belong to it. -/
def Span.Reaches (s : Span) (offset : Nat) : Prop :=
  s.start ≤ offset ∧ offset ≤ s.stop

/-- The bytes from the first to the last offset of a node. For an attribute they go
from its name to its closing quote. -/
def Node.span : Node → Span
  | .tag x => x.span
  | .attr a => ⟨a.nameStart, a.stop⟩
  | .leaf content => content.span

theorem TagHead.covers_eq_true_iff {x : Tag} {offset : Nat} :
    x.head.covers offset = true ↔ x.span.Reaches offset := by
  rw [TagHead.covers, Bool.and_eq_true, decide_eq_true_eq, decide_eq_true_eq]
  rfl

theorem Leaf.covers_eq_true_iff {leaf : Leaf} {offset : Nat} :
    leaf.covers offset = true ↔ leaf.span.Reaches offset := by
  rw [Leaf.covers, Bool.and_eq_true, decide_eq_true_eq, decide_eq_true_eq]
  rfl

theorem Attribute.covers_eq_true_iff {a : Attribute} {offset : Nat} :
    a.covers offset = true ↔ a.isUnplaced = false ∧ (Node.attr a).span.Reaches offset := by
  rw [Attribute.covers, Bool.and_eq_true, Bool.and_eq_true, decide_eq_true_eq, decide_eq_true_eq,
    Bool.not_eq_true', and_assoc, Span.Reaches, Node.span]

theorem Span.InOrder.tail {low high : Nat} {s : Span} {spans : List Span}
    (h : InOrder low high (s :: spans)) : InOrder low high spans where
  inside := fun x hx => h.inside x (List.mem_cons_of_mem s hx)
  pairwise := (List.pairwise_cons.mp h.pairwise).2

namespace Tag

/-! ## Depth -/

/-- The tags and the leaves of a tree, each with its depth. -/
inductive Holds : Tag → Nat → Node → Prop where
  | self (tag : Tag) : Holds tag 0 (.tag tag)
  | leaf {tag : Tag} {leaf : Leaf} (hleaf : leaf ∈ tag.leaf) : Holds tag 1 (.leaf leaf)
  | child {tag child : Tag} {depth : Nat} {node : Node} (hmem : child ∈ tag.tags)
      (hnode : Holds child depth node) : Holds tag (depth + 1) node

/-- No tag and no leaf of a tree that reaches an offset is deeper than `depth`. -/
def NoDeeper (offset depth : Nat) (top : Tag) : Prop :=
  ∀ below node, top.Holds below node → node.span.Reaches offset → below ≤ depth

/-- A node of a tree that reaches an offset where no tag and no leaf is deeper. Of a
tag, no attribute that stands in the text reaches the offset; if an attribute does,
no child of its tag. -/
inductive Deepest (offset : Nat) (top : Tag) : Node → Prop where
  | tag {x : Tag} {depth : Nat} (hx : top.Holds depth (.tag x)) (hreach : x.span.Reaches offset)
      (hdeep : top.NoDeeper offset depth)
      (hattributes : ∀ a ∈ x.head.attributes, a.isUnplaced = false →
        ¬(Node.attr a).span.Reaches offset) : Deepest offset top (.tag x)
  | leaf {leaf : Leaf} {depth : Nat} (hleaf : top.Holds depth (.leaf leaf))
      (hreach : leaf.span.Reaches offset) (hdeep : top.NoDeeper offset depth) :
      Deepest offset top (.leaf leaf)
  | attr {x : Tag} {a : Attribute} {depth : Nat} (hx : top.Holds depth (.tag x))
      (hreach : x.span.Reaches offset) (hdeep : top.NoDeeper offset depth)
      (ha : a ∈ x.head.attributes) (hplaced : a.isUnplaced = false)
      (hattribute : (Node.attr a).span.Reaches offset)
      (hleaf : ∀ leaf ∈ x.leaf, ¬leaf.span.Reaches offset)
      (htags : ∀ child ∈ x.tags, ¬child.span.Reaches offset) : Deepest offset top (.attr a)

variable {t : Text} {top tag child : Tag} {ts : List Tag} {node : Node}
  {offset depth low high : Nat}

theorem span_mem_childSpans_of_leaf {leaf : Leaf} (h : leaf ∈ tag.leaf) :
    leaf.span ∈ tag.childSpans :=
  List.mem_map_of_mem (leaf_mem_children_iff.mpr h)

theorem span_mem_childSpans_of_mem (h : child ∈ tag.tags) : child.span ∈ tag.childSpans :=
  List.mem_map_of_mem (tag_mem_children_iff.mpr h)

/-- The leaf of a tag ends where its first child tag starts, or before. -/
theorem InPlace.leaf_stop_le (h : tag.InPlace t) {leaf : Leaf} (hleaf : leaf ∈ tag.leaf)
    (hmem : child ∈ tag.tags) : leaf.span.stop ≤ child.head.start := by
  rw [Option.mem_def] at hleaf
  have hpairwise := h.children.pairwise
  rw [childSpans_eq, hleaf] at hpairwise
  exact (List.pairwise_cons.mp hpairwise).1 _ (List.mem_map_of_mem hmem)

theorem InPlace.inOrder_tags (h : tag.InPlace t) :
    Span.InOrder tag.head.startTagEnd tag.head.endTagStart (tag.tags.map span) where
  inside := by
    intro s hs
    obtain ⟨child, hchild, rfl⟩ := List.mem_map.mp hs
    exact h.children.inside _ (span_mem_childSpans_of_mem hchild)
  pairwise := by
    have hpairwise := h.children.pairwise
    rw [childSpans_eq] at hpairwise
    exact (List.pairwise_append.mp hpairwise).2.1

theorem everywhere_of_mem (h : Everywhere (InPlace t) [tag]) (hmem : child ∈ tag.tags) :
    Everywhere (InPlace t) [child] := by
  obtain ⟨⟨-, hbelow⟩, -⟩ := everywhere_cons.mp h
  rw [everywhere_singleton]
  exact fun x hx => hbelow x (mem_preorderAll_of_mem_preorder hmem hx)

/-- What a tree holds stands inside its top. -/
theorem Holds.inside (h : top.Holds depth node) (hplace : Everywhere (InPlace t) [top]) :
    top.head.start ≤ node.span.start ∧ node.span.stop ≤ top.head.stop := by
  induction h with
  | self tag => exact ⟨Nat.le_refl tag.head.start, Nat.le_refl tag.head.stop⟩
  | @leaf tag leaf hleaf =>
    obtain ⟨⟨htag, -⟩, -⟩ := everywhere_cons.mp hplace
    obtain ⟨hstart, -, hstop⟩ := htag.children.inside _ (span_mem_childSpans_of_leaf hleaf)
    exact ⟨htag.start_lt.le.trans hstart, hstop.trans htag.endTagStart_le⟩
  | @child tag child depth node hmem hnode ih =>
    obtain ⟨⟨htag, -⟩, -⟩ := everywhere_cons.mp hplace
    obtain ⟨hstart, -, hstop⟩ := htag.children.inside _ (span_mem_childSpans_of_mem hmem)
    obtain ⟨hfirst, hlast⟩ := ih (everywhere_of_mem hplace hmem)
    exact ⟨htag.start_lt.le.trans (hstart.trans hfirst),
      hlast.trans (hstop.trans htag.endTagStart_le)⟩

theorem Holds.reaches (h : top.Holds depth node) (hplace : Everywhere (InPlace t) [top])
    (hreach : node.span.Reaches offset) : top.span.Reaches offset :=
  ⟨(h.inside hplace).1.trans hreach.1, hreach.2.trans (h.inside hplace).2⟩

/-- The only node of a tree that reaches back to its start is its top. -/
theorem Holds.depth_eq_zero (h : top.Holds depth node) (hplace : Everywhere (InPlace t) [top])
    (hreach : node.span.Reaches offset) (hle : offset ≤ top.head.start) : depth = 0 := by
  obtain ⟨⟨htop, -⟩, -⟩ := everywhere_cons.mp hplace
  have hfirst : node.span.start < top.head.startTagEnd := (hreach.1.trans hle).trans_lt htop.start_lt
  cases h with
  | self => rfl
  | leaf hleaf =>
    have hbehind := (htop.children.inside _ (span_mem_childSpans_of_leaf hleaf)).1
    exact absurd hfirst hbehind.not_gt
  | child hmem hnode =>
    have hbehind := (htop.children.inside _ (span_mem_childSpans_of_mem hmem)).1
    have hinside := (hnode.inside (everywhere_of_mem hplace hmem)).1
    exact absurd hfirst (hbehind.trans hinside).not_gt

theorem NoDeeper.mono {depth' : Nat} (h : top.NoDeeper offset depth) (hle : depth ≤ depth') :
    top.NoDeeper offset depth' :=
  fun below node hholds hreach => (h below node hholds hreach).trans hle

theorem noDeeper_of_le_start (hplace : Everywhere (InPlace t) [top])
    (hle : offset ≤ top.head.start) : top.NoDeeper offset 0 := by
  intro below node hholds hreach
  exact (hholds.depth_eq_zero hplace hreach hle).le

theorem noDeeper_zero (hplace : Everywhere (InPlace t) [tag])
    (hleaf : ∀ leaf ∈ tag.leaf, ¬leaf.span.Reaches offset)
    (htags : ∀ child ∈ tag.tags, ¬child.span.Reaches offset) : tag.NoDeeper offset 0 := by
  intro below node hholds hreach
  cases hholds with
  | self => exact Nat.le_refl 0
  | leaf h => exact absurd hreach (hleaf _ h)
  | child hmem hnode =>
    exact absurd (hnode.reaches (everywhere_of_mem hplace hmem) hreach) (htags _ hmem)

theorem noDeeper_succ (hplace : Everywhere (InPlace t) [tag])
    (h : ∀ child ∈ tag.tags, child.span.Reaches offset → child.NoDeeper offset depth) :
    tag.NoDeeper offset (depth + 1) := by
  intro below node hholds hreach
  cases hholds with
  | self => exact Nat.zero_le _
  | leaf h => exact Nat.le_add_left 1 depth
  | child hmem hnode =>
    have hchild := hnode.reaches (everywhere_of_mem hplace hmem) hreach
    exact Nat.succ_le_succ (h _ hmem hchild _ _ hnode hreach)

/-! ## The search -/

/-- What a search finds among the children of a tag. -/
def below? (offset : Nat) (tag : Tag) : Option Node :=
  if (leafAt? offset tag.leaf).isSome || tag.leaf.any (fun leaf => decide (offset < leaf.span.start))
  then leafAt? offset tag.leaf
  else nodeAmong? offset tag.tags

/-- What a search finds in a tag none of whose children it stops at. -/
def onTag (offset : Nat) (tag : Tag) : Node :=
  match tag.head.attributes.find? (·.covers offset) with
  | some a => .attr a
  | none => .tag tag

theorem nodeAt?_eq (offset : Nat) (tag : Tag) :
    tag.nodeAt? offset =
      if tag.head.covers offset then some ((tag.below? offset).getD (tag.onTag offset)) else none := by
  obtain ⟨head, leaf, tags⟩ := tag
  rw [nodeAt?]
  by_cases hcovers : head.covers offset = true
  · rw [if_pos hcovers, if_pos hcovers, below?, onTag]
    dsimp only
    split
    · next node hbelow => rw [hbelow, Option.getD_some]
    · next hbelow =>
      rw [hbelow, Option.getD_none]
      cases head.attributes.find? (·.covers offset) <;> rfl
  · rw [if_neg hcovers, if_neg hcovers]

/-- A search finds something in a tag exactly at the offsets that the tag reaches. -/
theorem nodeAt?_eq_none_iff : tag.nodeAt? offset = none ↔ ¬tag.span.Reaches offset := by
  rw [nodeAt?_eq, ← TagHead.covers_eq_true_iff]
  split <;> simp_all

theorem exists_of_leafAt? {leaf : Option Leaf} (h : leafAt? offset leaf = some node) :
    ∃ content ∈ leaf, content.span.Reaches offset ∧ node = .leaf content := by
  rw [leafAt?, Option.map_eq_some_iff] at h
  obtain ⟨content, hcontent, rfl⟩ := h
  obtain ⟨hmem, hcovers⟩ := Option.filter_eq_some_iff.mp hcontent
  exact ⟨content, hmem, Leaf.covers_eq_true_iff.mp hcovers, rfl⟩

theorem not_reaches_of_leafAt? {leaf : Option Leaf} (h : leafAt? offset leaf = none) :
    ∀ content ∈ leaf, ¬content.span.Reaches offset := by
  intro content hmem hreach
  rw [leafAt?, Option.map_eq_none_iff, Option.filter_eq_none_iff] at h
  exact h content hmem (Leaf.covers_eq_true_iff.mpr hreach)

theorem nodeAmong?_cons (offset : Nat) (tag : Tag) (ts : List Tag) :
    nodeAmong? offset (tag :: ts) =
      if offset < tag.head.start then none
      else (tag.nodeAt? offset).or (nodeAmong? offset ts) := by
  rw [nodeAmong?]
  cases tag.nodeAt? offset <;> rfl

/-- Behind a tag that starts after the offset no other reaches it. -/
theorem le_start_of_inOrder (horder : Span.InOrder low high ((tag :: ts).map span)) :
    ∀ other ∈ ts, tag.head.stop ≤ other.head.start := by
  intro other hmem
  exact (List.pairwise_cons.mp horder.pairwise).1 _ (List.mem_map_of_mem hmem)

theorem not_reaches_of_nodeAmong? (h : nodeAmong? offset ts = none)
    (horder : Span.InOrder low high (ts.map span)) : ∀ child ∈ ts, ¬child.span.Reaches offset := by
  induction ts with
  | nil =>
    rintro child ⟨⟩
  | cons tag ts ih =>
    have hnext := le_start_of_inOrder horder
    have hpos : tag.head.start < tag.head.stop := (horder.inside _ List.mem_cons_self).2.1
    rw [nodeAmong?_cons] at h
    intro child hchild hreach
    have hstart : child.head.start ≤ offset := hreach.1
    split at h
    · next hlt =>
      rcases List.mem_cons.mp hchild with rfl | hchild
      · omega
      · have := hnext child hchild
        omega
    · rw [Option.or_eq_none_iff, nodeAt?_eq_none_iff] at h
      rcases List.mem_cons.mp hchild with rfl | hchild
      · exact h.1 hreach
      · exact ih h.2 horder.tail child hchild hreach

/-- A search in a list of tags goes down into one that reaches the offset. Any other
that reaches it starts there. -/
theorem exists_of_nodeAmong? (h : nodeAmong? offset ts = some node)
    (horder : Span.InOrder low high (ts.map span)) :
    ∃ child ∈ ts, child.nodeAt? offset = some node ∧
      ∀ other ∈ ts, other.span.Reaches offset → other = child ∨ offset ≤ other.head.start := by
  induction ts with
  | nil =>
    rw [nodeAmong?] at h
    cases h
  | cons tag ts ih =>
    have hnext := le_start_of_inOrder horder
    rw [nodeAmong?_cons] at h
    split at h
    · cases h
    · cases htag : tag.nodeAt? offset with
      | some found =>
        rw [htag] at h
        cases h
        have hstop : offset ≤ tag.head.stop := by
          by_contra hlt
          have hnone : tag.nodeAt? offset = none := nodeAt?_eq_none_iff.mpr fun h => hlt h.2
          rw [hnone] at htag
          cases htag
        refine ⟨tag, List.mem_cons_self, htag, ?_⟩
        intro other hother hreach
        rcases List.mem_cons.mp hother with rfl | hother
        · exact .inl rfl
        · exact .inr (hstop.trans (hnext other hother))
      | none =>
        rw [htag] at h
        obtain ⟨child, hchild, hfound, hothers⟩ := ih h horder.tail
        refine ⟨child, List.mem_cons_of_mem _ hchild, hfound, ?_⟩
        intro other hother hreach
        rcases List.mem_cons.mp hother with rfl | hother
        · exact absurd hreach (nodeAt?_eq_none_iff.mp htag)
        · exact hothers other hother hreach

/-- What a deepest node of a child is in the whole tree, if no other child holds
anything deeper. -/
theorem Deepest.of_child (h : child.Deepest offset node) (hmem : child ∈ tag.tags)
    (hdeep : ∀ {depth}, child.NoDeeper offset depth → tag.NoDeeper offset (depth + 1)) :
    tag.Deepest offset node := by
  cases h with
  | tag hx hreach hno hattributes =>
    exact .tag (.child hmem hx) hreach (hdeep hno) hattributes
  | leaf hleaf hreach hno => exact .leaf (.child hmem hleaf) hreach (hdeep hno)
  | attr hx hreach hno ha hplaced hattribute hleaf htags =>
    exact .attr (.child hmem hx) hreach (hdeep hno) ha hplaced hattribute hleaf htags

/-- The tag itself or one of its attributes, where no child reaches the offset. -/
theorem deepest_onTag (hplace : Everywhere (InPlace t) [tag]) (hreach : tag.span.Reaches offset)
    (hleaf : ∀ leaf ∈ tag.leaf, ¬leaf.span.Reaches offset)
    (htags : ∀ child ∈ tag.tags, ¬child.span.Reaches offset) :
    tag.Deepest offset (tag.onTag offset) := by
  have hdeep := noDeeper_zero hplace hleaf htags
  rw [onTag]
  cases hfind : tag.head.attributes.find? (·.covers offset) with
  | some a =>
    have ha := List.mem_of_find?_eq_some hfind
    obtain ⟨hcovers, -⟩ := List.find?_eq_some_iff_append.mp hfind
    obtain ⟨hplaced, hattribute⟩ := Attribute.covers_eq_true_iff.mp hcovers
    exact .attr (.self tag) hreach hdeep ha hplaced hattribute hleaf htags
  | none =>
    refine .tag (.self tag) hreach hdeep ?_
    intro a ha hplaced hattribute
    exact List.find?_eq_none.mp hfind a ha (Attribute.covers_eq_true_iff.mpr ⟨hplaced, hattribute⟩)

/-- No child of a tag reaches the offset if a search finds none. -/
theorem not_reaches_of_below? (htag : tag.InPlace t) (h : tag.below? offset = none) :
    (∀ leaf ∈ tag.leaf, ¬leaf.span.Reaches offset) ∧
      ∀ child ∈ tag.tags, ¬child.span.Reaches offset := by
  rw [below?] at h
  split at h
  · next hstop =>
    refine ⟨not_reaches_of_leafAt? h, ?_⟩
    rw [h, Option.isSome_none, Bool.false_or, Option.any_eq_true] at hstop
    obtain ⟨leaf, hleaf, hlater⟩ := hstop
    intro child hmem hreach
    -- A leaf that starts after the offset comes before all child tags.
    have hbefore := htag.leaf_stop_le hleaf hmem
    have hpos := (htag.children.inside _ (span_mem_childSpans_of_leaf hleaf)).2.1
    have hstart : child.head.start ≤ offset := hreach.1
    have := of_decide_eq_true hlater
    omega
  · next hgo =>
    rw [Bool.or_eq_true, not_or, Bool.not_eq_true, Option.isSome_eq_false_iff,
      Option.isNone_iff_eq_none] at hgo
    exact ⟨not_reaches_of_leafAt? hgo.1, not_reaches_of_nodeAmong? h htag.inOrder_tags⟩

/-- What a search finds among the children of a tag is deepest in the tag if it is so in
the child. -/
theorem deepest_of_below? (hplace : Everywhere (InPlace t) [tag])
    (h : tag.below? offset = some node)
    (hchildren : ∀ child ∈ tag.tags, ∀ node, child.nodeAt? offset = some node →
      child.Deepest offset node) : tag.Deepest offset node := by
  obtain ⟨⟨htag, -⟩, -⟩ := everywhere_cons.mp hplace
  rw [below?] at h
  split at h
  · obtain ⟨leaf, hleaf, hreach, rfl⟩ := exists_of_leafAt? h
    refine .leaf (.leaf hleaf) hreach (noDeeper_succ hplace ?_)
    intro child hmem _
    exact noDeeper_of_le_start (everywhere_of_mem hplace hmem)
      (hreach.2.trans (htag.leaf_stop_le hleaf hmem))
  · obtain ⟨child, hmem, hfound, hothers⟩ := exists_of_nodeAmong? h htag.inOrder_tags
    refine (hchildren child hmem node hfound).of_child hmem ?_
    intro depth hdeep
    refine noDeeper_succ hplace ?_
    intro other hother hreach
    rcases hothers other hother hreach with rfl | hle
    · exact hdeep
    · exact (noDeeper_of_le_start (everywhere_of_mem hplace hother) hle).mono (Nat.zero_le depth)

/-- **A search finds a deepest node.** -/
theorem deepest_of_nodeAt? (hplace : Everywhere (InPlace t) ts) :
    ∀ tag ∈ ts, ∀ node, tag.nodeAt? offset = some node → tag.Deepest offset node := by
  induction ts using children_induction with
  | step ts ih =>
    intro tag hmem node h
    have htags : Everywhere (InPlace t) tag.tags :=
      fun x hx => hplace x (mem_preorderAll_of_mem_tags hmem hx)
    have htag := hplace tag (mem_preorderAll_of_mem hmem)
    have hthis : Everywhere (InPlace t) [tag] :=
      everywhere_cons.mpr ⟨⟨htag, htags⟩, everywhere_nil _⟩
    rw [nodeAt?_eq] at h
    split at h
    · next hcovers =>
      cases hbelow : tag.below? offset with
      | none =>
        rw [hbelow] at h
        cases h
        obtain ⟨hleaf, hchildren⟩ := not_reaches_of_below? htag hbelow
        exact deepest_onTag hthis (TagHead.covers_eq_true_iff.mp hcovers) hleaf hchildren
      | some found =>
        rw [hbelow] at h
        cases h
        exact deepest_of_below? hthis hbelow (ih tag hmem htags)
    · cases h

end Tag

/-! ## Documents -/

variable {t : Text} {options : ParseOptions} {document : Document}

/-- **The node at an offset is a deepest one.** In the tree of a text without a byte
order mark, whatever the options, a search finds nothing exactly outside of the root.
It finds a node that reaches the offset while no tag and no leaf that is deeper does:
an attribute only if no child of its tag reaches the offset, and a tag only if none of
the attributes that stand in its text does. -/
theorem deepest_of_parse (hmark : t.head? ≠ some Source.mark)
    (hparse : parse options t = .ok document) (helement : document.root ≠ Tag.unplaced [])
    (offset : Nat) :
    (document.root.nodeAt? offset = none ↔
      offset < document.root.head.start ∨ document.root.head.stop < offset) ∧
    ∀ node, document.root.nodeAt? offset = some node → document.root.Deepest offset node := by
  rw [root_eq_of_parse hmark hparse] at helement ⊢
  have hplaces := (inPlace_rootOf hmark).resolve_left helement
  constructor
  · rw [Tag.nodeAt?_eq_none_iff, Span.Reaches, Tag.span]
    dsimp only
    omega
  · exact Tag.deepest_of_nodeAt? (Tag.everywhere_singleton.mpr hplaces) _ (List.mem_singleton_self _)

/-- In a text that breaks off, a CDATA section ends where the next element starts. The
section is the deepest node there, although the element reaches the offset too. -/
theorem deepest_of_touching :
    let t := "<a><![CDATA[x]]><b c='1'><d/>".toList
    t.head? ≠ some Source.mark ∧ ∃ document node,
      parse ⟨false, true, false⟩ t = .ok document ∧ document.root ≠ Tag.unplaced [] ∧
      document.root.nodeAt? 16 = some node ∧ node.span = ⟨3, 16⟩ ∧
      document.root.Deepest 16 node ∧ ∃ b ∈ document.root.tags, b.span.Reaches 16 := by
  intro t
  have hmark : t.head? ≠ some Source.mark := by decide
  have hany : (parse ⟨false, true, false⟩ t).toOption.any (fun document =>
      document.root.tags.any (·.head.covers 16) &&
        (document.root.nodeAt? 16).any (fun node => decide (node.span = ⟨3, 16⟩))) = true := by
    decide +kernel
  obtain ⟨document, hparse, hfound⟩ := exists_of_any_toOption hany
  obtain ⟨htags, hfound⟩ := Bool.and_eq_true_iff.mp hfound
  obtain ⟨b, hb, hcovers⟩ := List.any_eq_true.mp htags
  obtain ⟨node, hnode, hspan⟩ := Option.any_eq_true _ _ |>.mp hfound
  have helement : document.root ≠ Tag.unplaced [] := by
    intro hroot
    rw [hroot] at hb
    cases hb
  obtain ⟨-, hdeepest⟩ := deepest_of_parse hmark hparse helement 16
  exact ⟨hmark, document, node, hparse, helement, hnode, of_decide_eq_true hspan, hdeepest _ hnode, b,
    hb, TagHead.covers_eq_true_iff.mp hcovers⟩

/-- The first offset of a tag with an attribute that has no place: both of its ends are
zero, and a search finds the tag there. -/
theorem exists_unplaced_reaching :
    let t := "<r a/b=\"x\"/>".toList
    t.head? ≠ some Source.mark ∧ ∃ document x a, parse ParseOptions.standard t = .ok document ∧
      document.root ≠ Tag.unplaced [] ∧ document.root.nodeAt? 0 = some (.tag x) ∧
      a ∈ x.head.attributes ∧ (Node.attr a).span.Reaches 0 := by
  intro t
  have hmark : t.head? ≠ some Source.mark := by decide
  have hany : (parse ParseOptions.standard t).toOption.any (fun document =>
      document.root.head.covers 0 && (document.root.below? 0).isNone &&
        (document.root.head.attributes.find? (·.covers 0)).isNone &&
        document.root.head.attributes.any (fun a => a.nameStart == 0)) = true := by
    decide +kernel
  obtain ⟨document, hparse, hfound⟩ := exists_of_any_toOption hany
  simp only [Bool.and_eq_true, Option.isNone_iff_eq_none] at hfound
  obtain ⟨⟨⟨hcovers, hbelow⟩, hfind⟩, hattributes⟩ := hfound
  obtain ⟨a, ha, hstart⟩ := List.any_eq_true.mp hattributes
  have helement : document.root ≠ Tag.unplaced [] := by
    intro hroot
    rw [hroot] at ha
    cases ha
  have hnode : document.root.nodeAt? 0 = some (.tag document.root) := by
    rw [Tag.nodeAt?_eq, if_pos hcovers, hbelow, Option.getD_none, Tag.onTag, hfind]
  exact ⟨hmark, document, document.root, a, hparse, helement, hnode, ha, (beq_iff_eq.mp hstart).le,
    Nat.zero_le _⟩

end SkinMarkup
