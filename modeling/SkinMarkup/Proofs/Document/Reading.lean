import SkinMarkup.Proofs.Document.Outline
import SkinMarkup.Proofs.Tag.Trail

/-!
# What a tag keeps of its text

`Tag.ReadFrom` says how a tag of a document comes from the text: its start tag
stands where the tag says, its name and its attributes are those written there,
and an empty element has no children and no end tag. Every step of a builder
keeps this (`Step.readFrom`), so every tag of a document has it:
`readFrom_of_parseStrict`.
-/

namespace SkinMarkup

/-- A start tag or an empty element as an event. -/
def Event.start (selfClosing : Bool) (content : Text) : Event :=
  if selfClosing then .empty content else .opening content

/-- A start tag as it is written in a text, with `content` between its
brackets. -/
structure TagHead.Written (t : Text) (head : TagHead) (content : Text) : Prop where
  source : slice? head.start head.startTagEnd t =
    some (Event.start head.selfClosing content).source
  cut : ∃ cs rest, Event.next '<' cs = .ok (Event.start head.selfClosing content, rest)
  name : head.name = WrittenAttribute.elementName content
  attributes : attributesOf head.start (Event.start head.selfClosing content).source content =
    .ok head.attributes

/-- A tag that has been read from a text. -/
structure Tag.ReadFrom (t : Text) (tag : Tag) : Prop where
  written : ∃ content, tag.head.Written t content
  empty : tag.head.selfClosing = true →
    tag.tags = [] ∧ tag.head.startTagEnd = tag.head.stop ∧ tag.head.endTagStart = tag.head.stop

variable {t : Text}

theorem TagHead.Written.content_eq {head : TagHead} {content : Text} (h : head.Written t content) :
    content = head.name ++ content.dropWhile (!isMarkupSpace ·) := by
  rw [h.name, WrittenAttribute.elementName, List.takeWhile_append_dropWhile]

theorem Tag.ReadFrom.push {tag : Tag} (h : tag.ReadFrom t) (hself : tag.head.selfClosing = false)
    (child : Tag) : (tag.push child).ReadFrom t := by
  refine ⟨h.written, ?_⟩
  intro hpushed
  cases hself.symm.trans hpushed

theorem Tag.ReadFrom.closeTag {tag : Tag} (h : tag.ReadFrom t)
    (hself : tag.head.selfClosing = false) (endTagStart stop : Nat) :
    (Builder.closeTag endTagStart stop tag).ReadFrom t := by
  obtain ⟨content, hwritten⟩ := h.written
  refine ⟨⟨content, hwritten.source, hwritten.cut, hwritten.name, hwritten.attributes⟩, ?_⟩
  intro hclosed
  cases hself.symm.trans hclosed

namespace Builder

/-- A property of all tags that a builder has. -/
def Everywhere (P : Tag → Prop) (b : Builder) : Prop :=
  Tag.Everywhere P b.root.toList ∧ Tag.Everywhere P b.opened

variable {s : Source} {b next : Builder} {offset : Nat} {event : Event}

/-- A complete tag joins the others, and the tag that it goes into gets one more
child. -/
theorem everywhere_attach {P : Tag → Prop} {tag : Tag} (hb : b.Everywhere P)
    (htag : Tag.Everywhere P [tag])
    (hpush : ∀ parent others, b.opened = parent :: others → P parent → P (parent.push tag)) :
    (b.attach tag).Everywhere P := by
  obtain ⟨hroot, hopened⟩ := hb
  unfold Builder.attach
  split
  · next parent others heq =>
    rw [heq, Tag.everywhere_cons] at hopened
    obtain ⟨⟨hparent, hbelow⟩, hothers⟩ := hopened
    refine ⟨hroot, Tag.everywhere_cons.mpr ⟨⟨hpush parent others heq hparent, ?_⟩, hothers⟩⟩
    exact Tag.everywhere_append.mpr ⟨hbelow, htag⟩
  · refine ⟨?_, hopened⟩
    cases hr : b.root with
    | none => simpa [hr] using htag
    | some r => simpa [hr] using hroot

/-- What is written at the place of a start tag that has been opened. -/
theorem written_newTag {before cs rest content : Text} {c : Char} {shown : Text}
    {attributes : List Attribute} (selfClosing : Bool) (hs : s.text = t)
    (ht : t = before ++ c :: cs)
    (hnext : Event.next c cs = .ok (Event.start selfClosing content, rest))
    (hshown : s.shown (width before) (Event.start selfClosing content).source = .ok shown)
    (hattributes : attributesOf (width before) shown content = .ok attributes) :
    TagHead.Written t
      { (b.newTag s (width before) content (Event.start selfClosing content).source attributes).head
        with selfClosing } content := by
  -- Anything else would have been cut off as text.
  have hc : c = '<' := by
    by_cases hc : c = '<'
    · exact hc
    · rw [Event.next, if_neg hc] at hnext
      cases selfClosing <;> cases hnext
  subst hc
  have hsplit : t = before ++ (Event.start selfClosing content).source ++ rest := by
    rw [ht, ← Event.next_source hnext, List.append_assoc]
  -- What is shown at the place of the tag is the tag itself.
  cases (Source.shown_of_eq (hs.trans hsplit)).symm.trans hshown
  refine ⟨?_, ⟨cs, rest, hnext⟩, rfl, hattributes⟩
  rw [hsplit]
  exact slice?_append before _ rest

/-- **A step keeps what its tags have from the text.** -/
theorem Step.readFrom {before cs rest : Text} {c : Char} (hs : s.text = t)
    (ht : t = before ++ c :: cs)
    (hnext : Event.next c cs = .ok (event, rest)) (h : Step s b (width before) event next)
    (hregular : b.Regular) (hb : b.Everywhere (Tag.ReadFrom t)) :
    next.Everywhere (Tag.ReadFrom t) := by
  cases h with
  | skip hkind => exact hb
  | @leaf _ tag others leaf hkind hopened hcount hcontent =>
    obtain ⟨hroot, hopen⟩ := hb
    rw [hopened, Tag.everywhere_cons] at hopen
    obtain ⟨⟨htag, hbelow⟩, hothers⟩ := hopen
    exact ⟨hroot, Tag.everywhere_cons.mpr ⟨⟨⟨htag.written, htag.empty⟩, hbelow⟩, hothers⟩⟩
  | @opening content tag hopen =>
    obtain ⟨hroot, shown, attributes, hshown, hattributes, rfl⟩ := openTag_eq_ok hopen
    have hwritten := written_newTag (b := b) false hs ht hnext hshown hattributes
    refine ⟨hb.1, Tag.everywhere_cons.mpr ⟨⟨⟨⟨content, hwritten⟩, ?_⟩, Tag.everywhere_nil _⟩, hb.2⟩⟩
    rintro ⟨⟩
  | @empty content tag hopen =>
    obtain ⟨hroot, shown, attributes, hshown, hattributes, rfl⟩ := openTag_eq_ok hopen
    have hwritten := written_newTag (b := b) true hs ht hnext hshown hattributes
    apply everywhere_attach hb
    · refine Tag.everywhere_cons.mpr ⟨⟨⟨⟨content, hwritten⟩, ?_⟩, Tag.everywhere_nil _⟩,
        Tag.everywhere_nil _⟩
      intro _
      exact ⟨rfl, rfl, rfl⟩
    · intro parent others hopened hparent
      exact hparent.push (hregular.not_selfClosing hopened) _
  | @closing content tag others hopened hname =>
    -- Only the end of the tag changes, and the tag around it gets a child.
    obtain ⟨hroot, hopen⟩ := hb
    rw [hopened, Tag.everywhere_cons] at hopen
    obtain ⟨⟨htag, hbelow⟩, hothers⟩ := hopen
    have hclosed := htag.closeTag (hregular.not_selfClosing hopened) (width before)
      (width before + width (Event.closing content).source)
    refine everywhere_attach ⟨hroot, hothers⟩
      (Tag.everywhere_cons.mpr ⟨⟨hclosed, hbelow⟩, Tag.everywhere_nil _⟩) ?_
    intro parent others' heq hparent
    exact hparent.push ((hregular.tail hopened).not_selfClosing heq) _

end Builder

/-! ## Documents -/

variable {root : Tag}

/-- **Every tag of a document has been read from its text.** -/
theorem readFrom_of_parseStrict (hmark : t.head? ≠ some Source.mark)
    (h : parseStrict t = .ok root) : Tag.Everywhere (Tag.ReadFrom t) [root] := by
  obtain ⟨-, hall, -⟩ := parseStrict_induction
    (fun _ b => b.Regular ∧ b.Everywhere (Tag.ReadFrom t)) hmark h
    ⟨Builder.regular_start, Tag.everywhere_nil _, Tag.everywhere_nil _⟩
    (fun ht hnext hinv hstep => ⟨hstep.regular hinv.1, hstep.readFrom rfl ht hnext hinv.1 hinv.2⟩)
  exact hall

theorem leafy_of_parseStrict (hmark : t.head? ≠ some Source.mark) (h : parseStrict t = .ok root) :
    Tag.Leafy [root] :=
  fun x hx hself => ((readFrom_of_parseStrict hmark h x hx).empty hself).1

/-- What holds of all marks of a forest holds of the marks of every tag in it. -/
theorem Tag.everywhere_of_marksAll {P : TokenKind × Span → Prop} {ts : List Tag}
    (hleafy : Leafy ts) (h : ∀ m ∈ marksAll ts, P m) :
    Everywhere (fun x => P x.startMark ∧ (x.head.selfClosing = false → P x.endMark)) ts := by
  induction ts using forest_induction with
  | nil => exact everywhere_nil _
  | empty tag ts hself ih =>
    obtain ⟨⟨hnil, -⟩, hts⟩ := everywhere_cons.mp hleafy
    rw [marksAll_cons, marks_eq, if_pos hself, List.forall_mem_append, List.forall_mem_singleton] at h
    refine everywhere_cons.mpr ⟨⟨⟨h.1, ?_⟩, ?_⟩, ih hts h.2⟩
    · rw [hself]
      rintro ⟨⟩
    · rw [hnil hself]
      exact everywhere_nil _
  | node tag ts hself ihtags ih =>
    obtain ⟨⟨-, htags⟩, hts⟩ := everywhere_cons.mp hleafy
    rw [marksAll_cons, marks_eq, hself, if_neg Bool.false_ne_true, List.forall_mem_append,
      List.forall_mem_cons, List.forall_mem_append, List.forall_mem_singleton] at h
    obtain ⟨⟨hstart, hbelow, hend⟩, hothers⟩ := h
    exact everywhere_cons.mpr ⟨⟨⟨hstart, fun _ => hend⟩, ihtags htags hbelow⟩, ih hts hothers⟩

/-- The tokens at the marks of a document fill them. -/
theorem span_of_mem_marks (hplain : Plain t) (h : parseStrict t = .ok root) :
    ∀ m ∈ Tag.marksAll [root], (Token.ofMark t m).span = m.2 := by
  obtain ⟨tokens, hreading, hmarks⟩ := exists_reading_of_parseStrict hplain h
  have helements : (scan t).elements = tokens := congrArg Prod.fst hreading
  intro m hm
  rw [Tag.marksAll_cons, Tag.marksAll_nil, List.append_nil, ← hmarks, ← helements] at hm
  obtain ⟨token, htoken, rfl⟩ := List.mem_map.mp hm
  rw [Token.ofMark_mark (Scan.slice?_of_mem_tokens (Scan.mem_tokens_of_mem_elements htoken))]
  rfl

/-- **The tokens of a tag stand where the tag says.** -/
theorem tokenRange_of_parseStrict (hplain : Plain t) (h : parseStrict t = .ok root) :
    Tag.Everywhere (fun x => x.tokenRange t = x.range) [root] := by
  intro x hx
  have hleafy := leafy_of_parseStrict hplain.unmarked h
  obtain ⟨hstart, hend⟩ := Tag.everywhere_of_marksAll hleafy (span_of_mem_marks hplain h) x hx
  have hread := readFrom_of_parseStrict hplain.unmarked h x hx
  have hstart : (x.startToken t).span = x.startMark.2 := hstart
  rw [Tag.tokenRange, Tag.range]
  cases hself : x.head.selfClosing with
  | true =>
    obtain ⟨-, htail, htag⟩ := hread.empty hself
    rw [Tag.startMark, if_pos hself] at hstart
    have hstop : (x.startToken t).stop = x.head.stop := congrArg Span.stop hstart
    rw [if_pos rfl, hstart, hstop, htail, htag]
  | false =>
    have hend : (x.endToken t).span = x.endMark.2 := hend hself
    rw [Tag.startMark, hself, if_neg Bool.false_ne_true] at hstart
    rw [if_neg Bool.false_ne_true, hstart, hend]
    rfl

end SkinMarkup
