import SkinMarkup.Proofs.Document.Lenient
import SkinMarkup.Proofs.Document.Reading
import SkinMarkup.Proofs.Tag.Children
import SkinMarkup.Proofs.Text.Trim

/-!
# Where the tags of a tree stand

The ends of a tag come from wherever reading stood when the tag was closed, which
may be the end of a text with issues. They nest all the same. Each open tag reaches
to the start of the next one, and the innermost to where reading stands
(`Builder.Nested`). Every step keeps this (`Builder.Placed.step`), and closing all
tags at the end of the text keeps it too. So every tag of every tree is in its place:
`inPlace_of_parse`.
-/

namespace SkinMarkup

/-! ## Spans in order -/

/-- Spans between two offsets that are not empty and stand one behind the other. -/
structure Span.InOrder (low high : Nat) (spans : List Span) : Prop where
  inside : ∀ s ∈ spans, low ≤ s.start ∧ s.start < s.stop ∧ s.stop ≤ high
  pairwise : spans.Pairwise fun a b => a.stop ≤ b.start

namespace Span.InOrder

variable {low high high' : Nat} {spans : List Span}

theorem nil (low high : Nat) : InOrder low high [] where
  inside := by
    intro s hs
    cases hs
  pairwise := List.Pairwise.nil

theorem mono (h : InOrder low high spans) (hle : high ≤ high') : InOrder low high' spans where
  inside := by
    intro s hs
    obtain ⟨hlow, hlt, hhigh⟩ := h.inside s hs
    exact ⟨hlow, hlt, hhigh.trans hle⟩
  pairwise := h.pairwise

/-- One more span fits in behind all others. -/
theorem concat {s : Span} (h : InOrder low high spans) (hlow : low ≤ high) (hstart : high ≤ s.start)
    (hlt : s.start < s.stop) (hstop : s.stop ≤ high') : InOrder low high' (spans ++ [s]) where
  inside := by
    intro x hx
    rcases List.mem_append.mp hx with hx | hx
    · obtain ⟨hxlow, hxlt, hxhigh⟩ := h.inside x hx
      exact ⟨hxlow, hxlt, by omega⟩
    · rw [List.mem_singleton.mp hx]
      exact ⟨hlow.trans hstart, hlt, hstop⟩
  pairwise := by
    refine List.pairwise_append.mpr ⟨h.pairwise, List.pairwise_singleton _ s, ?_⟩
    intro a ha b hb
    rw [List.mem_singleton.mp hb]
    exact (h.inside a ha).2.2.trans hstart

end Span.InOrder

/-! ## Tags in their places -/

/-- A leaf with a text that neither starts nor ends with a blank. -/
structure Leaf.Sound (leaf : Leaf) : Prop where
  content_ne_nil : leaf.content ≠ []
  trimmed : Trimmed leaf.content

namespace Tag

/-- Where the children of a tag stand. -/
def childSpans (tag : Tag) : List Span :=
  tag.children.map Child.span

theorem childSpans_eq (tag : Tag) :
    tag.childSpans = (tag.leaf.map (·.span)).toList ++ tag.tags.map span := by
  rw [childSpans, children, List.map_append, List.map_map]
  cases tag.leaf <;> rfl

/-- A tag that stands in a text where it says: its start tag is there and not empty,
its end tag comes behind it, and between the two its children stand in their order.
Only the first child can be a leaf. Its content is not empty, has no blanks at its ends,
and is the text of the tag. -/
structure InPlace (t : Text) (tag : Tag) : Prop where
  start_lt : tag.head.start < tag.head.startTagEnd
  startTagEnd_le : tag.head.startTagEnd ≤ tag.head.endTagStart
  endTagStart_le : tag.head.endTagStart ≤ tag.head.stop
  stop_le : tag.head.stop ≤ width t
  bracket : ∃ before after, t = before ++ '<' :: after ∧ width before = tag.head.start
  children : Span.InOrder tag.head.startTagEnd tag.head.endTagStart tag.childSpans
  textFirst : tag.TextFirst
  leaf : ∀ leaf, .leaf leaf ∈ tag.children → leaf.Sound

/-- A tag whose end is not known yet. What it has so far stands before `limit`. -/
structure OpenTo (t : Text) (limit : Nat) (tag : Tag) : Prop where
  start_lt : tag.head.start < tag.head.startTagEnd
  startTagEnd_le : tag.head.startTagEnd ≤ limit
  bracket : ∃ before after, t = before ++ '<' :: after ∧ width before = tag.head.start
  children : Span.InOrder tag.head.startTagEnd limit tag.childSpans
  leaf : ∀ leaf, .leaf leaf ∈ tag.children → leaf.Sound
  below : Everywhere (InPlace t) tag.tags

variable {t : Text} {tag child : Tag} {limit limit' : Nat}

theorem InPlace.start_lt_stop (h : tag.InPlace t) : tag.head.start < tag.head.stop := by
  have := h.start_lt
  have := h.startTagEnd_le
  have := h.endTagStart_le
  omega

theorem OpenTo.mono (h : tag.OpenTo t limit) (hle : limit ≤ limit') : tag.OpenTo t limit' where
  start_lt := h.start_lt
  startTagEnd_le := h.startTagEnd_le.trans hle
  bracket := h.bracket
  children := h.children.mono hle
  leaf := h.leaf
  below := h.below

/-- An open tag takes in a tag that stands behind everything it has. -/
theorem OpenTo.push (h : tag.OpenTo t limit) (hchild : Everywhere (InPlace t) [child])
    (hstart : limit ≤ child.head.start) (hstop : child.head.stop ≤ limit') :
    (tag.push child).OpenTo t limit' := by
  obtain ⟨⟨hplace, -⟩, -⟩ := everywhere_cons.mp hchild
  have hlt := hplace.start_lt_stop
  have hspans : (tag.push child).childSpans = tag.childSpans ++ [child.span] := by
    rw [childSpans, children_push, List.map_append]
    rfl
  constructor
  · exact h.start_lt
  · exact h.startTagEnd_le.trans (by omega)
  · exact h.bracket
  · rw [hspans]
    exact h.children.concat h.startTagEnd_le hstart hlt hstop
  · intro leaf hleaf
    rw [leaf_mem_children_iff] at hleaf
    exact h.leaf leaf (leaf_mem_children_iff.mpr hleaf)
  · exact everywhere_append.mpr ⟨h.below, hchild⟩

/-- An open tag without children takes in a leaf. -/
theorem OpenTo.withLeaf (h : tag.OpenTo t limit) (hcount : tag.childCount = 0) {leaf : Leaf}
    (hsound : leaf.Sound) (hstart : limit ≤ leaf.span.start)
    (hlt : leaf.span.start < leaf.span.stop) (hstop : leaf.span.stop ≤ limit') :
    Tag.OpenTo t limit' { tag with leaf := some leaf } := by
  have hchildren := children_withLeaf hcount leaf
  constructor
  · exact h.start_lt
  · exact h.startTagEnd_le.trans (by omega)
  · exact h.bracket
  · have hspans : childSpans { tag with leaf := some leaf } = [] ++ [leaf.span] := by
      rw [childSpans, hchildren]
      rfl
    rw [hspans]
    exact (Span.InOrder.nil _ limit).concat h.startTagEnd_le hstart hlt hstop
  · intro own hown
    rw [hchildren, List.mem_singleton] at hown
    cases hown
    exact hsound
  · exact h.below

/-- An open tag gets its end behind everything it has. -/
theorem OpenTo.close (h : tag.OpenTo t limit) {endTagStart stop : Nat} (hlimit : limit ≤ endTagStart)
    (hend : endTagStart ≤ stop) (hstop : stop ≤ width t) :
    Everywhere (InPlace t) [Builder.closeTag endTagStart stop tag] := by
  refine everywhere_cons.mpr ⟨⟨?_, h.below⟩, everywhere_nil _⟩
  constructor
  · exact h.start_lt
  · exact h.startTagEnd_le.trans hlimit
  · exact hend
  · exact hstop
  · exact h.bracket
  · exact h.children.mono hlimit
  · exact textFirst _
  · exact h.leaf

end Tag

/-! ## Steps of a builder -/

namespace Builder

open Tag (InPlace OpenTo everywhere_nil everywhere_cons)

variable {s : Source} {t : Text} {b next : Builder} {limit limit' : Nat} {tag : Tag}

/-- Open tags, innermost first: each reaches to the start of the one inside it, and
the innermost to `limit`. -/
def Nested (t : Text) : (limit : Nat) → List Tag → Prop
  | _, [] => True
  | limit, tag :: others => tag.OpenTo t limit ∧ Nested t tag.head.start others

theorem Nested.mono {opened : List Tag} (h : Nested t limit opened) (hle : limit ≤ limit') :
    Nested t limit' opened := by
  cases opened with
  | nil => exact trivial
  | cons tag others => exact ⟨h.1.mono hle, h.2⟩

/-- What has been built of the text before byte `limit` is in its place. -/
structure Placed (t : Text) (limit : Nat) (b : Builder) : Prop where
  root : Tag.Everywhere (InPlace t) b.root.toList
  opened : Nested t limit b.opened

theorem Placed.mono (h : b.Placed t limit) (hle : limit ≤ limit') : b.Placed t limit' :=
  ⟨h.root, h.opened.mono hle⟩

/-- A complete tag behind everything that was built is taken in. -/
theorem Placed.attach (h : b.Placed t limit) (htag : Tag.Everywhere (InPlace t) [tag])
    (hstart : limit ≤ tag.head.start) (hstop : tag.head.stop ≤ limit') :
    (b.attach tag).Placed t limit' := by
  obtain ⟨hroot, hopened⟩ := h
  unfold Builder.attach
  split
  · next parent others heq =>
    rw [heq] at hopened
    exact ⟨hroot, hopened.1.push htag hstart hstop, hopened.2⟩
  · next heq =>
    refine ⟨?_, by rw [heq]; exact trivial⟩
    cases hr : b.root with
    | none => simpa [hr] using htag
    | some r => simpa [hr] using hroot

theorem width_pos {raw : Text} (h : raw ≠ []) : 0 < width raw := by
  cases raw with
  | nil => exact absurd rfl h
  | cons c cs =>
    have := c.utf8Size_pos
    rw [width_cons]
    omega

/-- A run of text puts a leaf on what is left of it without the blanks around. -/
theorem stepText_cases {before raw after : Text} (ht : s.text = before ++ raw ++ after)
    (h : b.stepText s (width before) raw = .ok next) :
    next = b ∨ ∃ leaf, next = b.attachLeaf leaf ∧ Trimmed leaf.content ∧
      width before ≤ leaf.span.start ∧ leaf.span.start < leaf.span.stop ∧
      leaf.span.stop ≤ width before + width raw := by
  simp only [stepText, Source.shown_of_eq ht, bind, Except.bind, pure, Except.pure] at h
  split at h
  · cases h
    exact .inl rfl
  · next hraw =>
    cases hcontent : unescape raw with
    | error fault =>
      rw [hcontent] at h
      cases h
    | ok content =>
      rw [hcontent] at h
      change (if b.opened.isEmpty then Except.error _ else Except.ok _) = Except.ok next at h
      split at h
      · cases h
      · cases h
        refine .inr ⟨_, rfl, trimmed_trim content, ?_⟩
        obtain ⟨l, r, hsplit, hl, hr, htrimmed⟩ := exists_eq_trim raw
        have hstart : trimStart raw = trim raw ++ r := by
          conv => lhs; rw [hsplit, List.append_assoc]
          refine trimStart_of_blanks_before hl ?_
          rw [List.head?_append_of_ne_nil _ hraw]
          exact htrimmed.first
        have hend : trimEnd raw = l ++ trim raw := by
          conv => lhs; rw [hsplit, trimEnd_append_blanks _ hr]
          refine trimEnd_of_last ?_
          rw [List.getLast?_append_of_ne_nil _ hraw]
          exact htrimmed.last
        have hwidth := congrArg width hsplit
        have hpos := width_pos hraw
        simp only [width_append] at hwidth
        simp only [hstart, hend, width_append]
        omega

theorem Placed.attachLeaf (h : b.Placed t limit) {leaf : Leaf} (htrimmed : Trimmed leaf.content)
    (hstart : limit ≤ leaf.span.start) (hlt : leaf.span.start < leaf.span.stop)
    (hstop : leaf.span.stop ≤ limit') : (b.attachLeaf leaf).Placed t limit' := by
  unfold Builder.attachLeaf
  split
  · exact h.mono (by omega)
  · next tag others heq =>
    split
    · next hfree =>
      have hopened := h.opened
      rw [heq] at hopened
      exact ⟨h.root, hopened.1.withLeaf hfree.1 ⟨hfree.2, htrimmed⟩ hstart hlt hstop, hopened.2⟩
    · exact h.mono (by omega)

/-- A start tag that stands in the text can be opened there. -/
theorem openTo_of_openTag {before after content source : Text}
    (ht : t = before ++ source ++ after) (hsource : source.head? = some '<')
    (h : b.openTag s (width before) content source = .ok tag) :
    tag.OpenTo t (width before + width source) ∧ tag.head.start = width before ∧
      tag.head.startTagEnd = width before + width source ∧ tag.leaf = none ∧ tag.tags = [] := by
  obtain ⟨-, shown, attributes, -, -, rfl⟩ := openTag_eq_ok h
  refine ⟨?_, rfl, rfl, rfl, rfl⟩
  obtain ⟨cs, rfl⟩ : ∃ cs, source = '<' :: cs := by
    cases source with
    | nil => cases hsource
    | cons c cs =>
      cases hsource
      exact ⟨cs, rfl⟩
  constructor
  · exact Nat.lt_add_of_pos_right (width_pos (List.cons_ne_nil _ _))
  · exact Nat.le_refl _
  · exact ⟨before, cs ++ after, by rw [ht]; simp, rfl⟩
  · exact .nil _ _
  · rintro _ ⟨⟩
  · exact everywhere_nil _

theorem Placed.opening {before after content : Text}
    (ht : t = before ++ (Event.opening content).source ++ after) (h : b.Placed t (width before))
    (hopen : b.openTag s (width before) content (Event.opening content).source = .ok tag) :
    Placed t (width before + width (Event.opening content).source)
      { b with opened := tag :: b.opened } := by
  obtain ⟨hopen, hstart, -⟩ := openTo_of_openTag ht rfl hopen
  exact ⟨h.root, hopen, by rw [hstart]; exact h.opened⟩

/-- An empty element is complete where its start tag stops. -/
theorem Placed.empty {before after content : Text}
    (ht : t = before ++ (Event.empty content).source ++ after) (h : b.Placed t (width before))
    (hopen : b.openTag s (width before) content (Event.empty content).source = .ok tag) :
    (b.attach { tag with head := { tag.head with selfClosing := true } }).Placed t
      (width before + width (Event.empty content).source) := by
  obtain ⟨-, shown, attributes, -, -, htag⟩ := openTag_eq_ok hopen
  obtain ⟨hopen, hstart, -⟩ := openTo_of_openTag ht rfl hopen
  have hwidth := congrArg width ht
  simp only [width_append] at hwidth
  have hclosed := hopen.close (Nat.le_refl _) (Nat.le_refl _) (by omega)
  obtain ⟨⟨hplace, -⟩, -⟩ := everywhere_cons.mp hclosed
  refine h.attach ?_ hstart.ge ?_
  · refine everywhere_cons.mpr ⟨⟨?_, hopen.below⟩, everywhere_nil _⟩
    subst htag
    exact ⟨hplace.start_lt, hplace.startTagEnd_le, hplace.endTagStart_le, hplace.stop_le,
      hplace.bracket, hplace.children, Tag.textFirst _, hplace.leaf⟩
  · subst htag
    exact Nat.le_refl _

theorem Placed.closing {before after content : Text} {others : List Tag}
    (ht : t = before ++ (Event.closing content).source ++ after) (h : b.Placed t (width before))
    (hopened : b.opened = tag :: others) :
    ({ b with opened := others }.attach (closeTag (width before)
      (width before + width (Event.closing content).source) tag)).Placed t
        (width before + width (Event.closing content).source) := by
  have hnested := h.opened
  rw [hopened] at hnested
  have hwidth := congrArg width ht
  simp only [width_append] at hwidth
  have hgrow : width before ≤ width before + width (Event.closing content).source :=
    Nat.le_add_right _ _
  have hclosed := hnested.1.close (Nat.le_refl _) hgrow (by omega)
  have hothers : Placed t tag.head.start { b with opened := others } := ⟨h.root, hnested.2⟩
  exact hothers.attach hclosed (Nat.le_refl _) (Nat.le_refl _)

/-- **A step keeps everything in its place.** -/
theorem Placed.step {before after : Text} {event : Event} (hs : s.text = t)
    (ht : t = before ++ event.source ++ after) (h : b.Placed t (width before))
    (hstep : b.step s (width before) event = .ok next) :
    next.Placed t (width (before ++ event.source)) := by
  rw [width_append]
  have hgrow : width before ≤ width before + width event.source := Nat.le_add_right _ _
  cases event with
  | text raw =>
    rcases stepText_cases (hs.trans ht) hstep with rfl | ⟨leaf, rfl, htrimmed, hstart, hlt, hstop⟩
    · exact h.mono hgrow
    · exact h.attachLeaf htrimmed hstart hlt hstop
  | opening content =>
    cases step_cases hstep with
    | skip hkind => cases hkind
    | leaf leaf hkind => cases hkind
    | opening hopen => exact h.opening ht hopen
  | empty content =>
    cases step_cases hstep with
    | skip hkind => cases hkind
    | leaf leaf hkind => cases hkind
    | empty hopen => exact h.empty ht hopen
  | closing content =>
    cases step_cases hstep with
    | skip hkind => cases hkind
    | leaf leaf hkind => cases hkind
    | closing hopened hname => exact h.closing ht hopened
  | cdata content =>
    cases hstep
    refine h.attachLeaf (trimmed_trim content) (Nat.le_refl _) ?_ (Nat.le_refl _)
    exact Nat.lt_add_of_pos_right (width_pos (List.cons_ne_nil _ _))
  | aside raw =>
    cases hstep
    exact h.mono hgrow

/-! ## The end of the text -/

/-- **Closing all tags at the end of the text leaves everything in its place.** -/
theorem inPlace_closeAll {opened : List Tag} {inner : Option Tag} (h : Nested t limit opened)
    (hlimit : limit ≤ width t) (hinner : Tag.Everywhere (InPlace t) inner.toList)
    (hends : ∀ tag ∈ inner, limit ≤ tag.head.start ∧ tag.head.stop = width t) :
    Tag.Everywhere (InPlace t) (closeAll (width t) inner opened).toList := by
  induction opened generalizing limit inner with
  | nil => exact hinner
  | cons tag others ih =>
    obtain ⟨hopen, hothers⟩ := h
    have hstart := hopen.start_lt
    have hbody := hopen.startTagEnd_le
    have hfull : Tag.OpenTo t (width t) { tag with tags := tag.tags ++ inner.toList } := by
      cases inner with
      | none =>
        cases tag
        rw [Option.toList_none, List.append_nil]
        exact hopen.mono hlimit
      | some child =>
        obtain ⟨hchild, hstop⟩ := hends child rfl
        exact hopen.push hinner hchild hstop.le
    refine ih hothers (by omega)
      (hfull.close (Nat.le_refl _) (Nat.le_refl _) (Nat.le_refl _)) ?_
    rintro _ ⟨⟩
    exact ⟨Nat.le_refl _, rfl⟩

theorem Placed.rootClosedAt (h : b.Placed t limit) (hlimit : limit ≤ width t) :
    Tag.Everywhere (InPlace t) (b.rootClosedAt (width t)).toList := by
  have hclosed : Tag.Everywhere (InPlace t) (closeAll (width t) none b.opened).toList :=
    inPlace_closeAll h.opened hlimit (everywhere_nil _) (by rintro _ ⟨⟩)
  rw [Builder.rootClosedAt]
  cases hr : b.root with
  | none => exact hclosed
  | some r => simpa [hr] using h.root

end Builder

/-! ## Documents -/

variable {t : Text}

theorem inPlace_rootOf (hmark : t.head? ≠ some Source.mark) :
    Source.rootOf t = Tag.unplaced [] ∨ ∀ tag ∈ (Source.rootOf t).preorder, tag.InPlace t := by
  obtain ⟨-, before, rest, hsplit, hplaced⟩ := Source.build_induction
    (fun before b => b.Placed t (width before)) hmark ⟨Tag.everywhere_nil _, trivial⟩
    (by
      intro before c cs rest event b next ht hnext hplaced hstep
      have htext : t = before ++ event.source ++ rest := by
        rw [List.append_assoc, Event.next_source hnext, ht]
      exact hplaced.step rfl htext hstep)
  have hwidth : width before ≤ width t := by
    rw [hsplit, width_append]
    exact Nat.le_add_right _ _
  have hroot := hplaced.rootClosedAt hwidth
  rw [Source.rootOf]
  cases hr : (Source.ofText t).build.1.rootClosedAt (width t) with
  | none =>
    left
    rfl
  | some root =>
    right
    rw [hr] at hroot
    exact Tag.everywhere_singleton.mp hroot

/-- **Every tag of every tree stands where it says.** A text without a byte order
mark can be read at every offset that reading comes to. In its tree, unless that has
no element, start tags and end tags follow one another, each start tag begins with a
bracket of the text, and the children of every tag stand in their order between its
start tag and its end tag. -/
theorem inPlace_of_parse (hmark : t.head? ≠ some Source.mark) (options : ParseOptions) :
    parse options t ≠ .error .misaligned ∧
    ∀ document, parse options t = .ok document → document.root ≠ Tag.unplaced [] →
      ∀ tag ∈ document.root.preorder, tag.InPlace t := by
  constructor
  · intro hmisaligned
    rcases parse_of_unmarked hmark options with ⟨issue, herror⟩ | ⟨issues, hok⟩
    · cases herror.symm.trans hmisaligned
    · cases hok.symm.trans hmisaligned
  · intro document hparse helement
    rw [root_eq_of_parse hmark hparse] at helement ⊢
    exact (inPlace_rootOf hmark).resolve_left helement

/-- A tree of a text that breaks off in an element with text and two children, one of
which has a CDATA section. -/
theorem inPlace_of_unclosed :
    let t := "<a> x &gt; y <b/><c z='>'><![CDATA[ d ]]></c><e".toList
    t.head? ≠ some Source.mark ∧ parse ⟨false, true, false⟩ t ≠ .error .misaligned ∧
    ∃ document, parse ⟨false, true, false⟩ t = .ok document ∧ document.root ≠ Tag.unplaced [] ∧
      document.root.preorder.length = 3 ∧ ∀ tag ∈ document.root.preorder, tag.InPlace t := by
  intro t
  have hmark : t.head? ≠ some Source.mark := by decide
  have hany : (parse ⟨false, true, false⟩ t).toOption.any
      (fun document => decide (document.root.preorder.length = 3)) = true := by
    decide +kernel
  obtain ⟨document, hparse, hcount⟩ := exists_of_any_toOption hany
  have hcount := of_decide_eq_true hcount
  have helement : document.root ≠ Tag.unplaced [] := by
    intro hroot
    rw [hroot] at hcount
    revert hcount
    decide
  obtain ⟨haligned, hplaces⟩ := inPlace_of_parse hmark ⟨false, true, false⟩
  exact ⟨hmark, haligned, document, hparse, helement, hcount, hplaces document hparse helement⟩

end SkinMarkup
