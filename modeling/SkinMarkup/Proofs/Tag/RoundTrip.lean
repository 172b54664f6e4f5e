import SkinMarkup.Proofs.Markup.Printing

/-!
# Trees survive being written and read again

Every tree that has been read is printable if its names are safe:
`printable_of_parseStrict`. Setting and deleting attributes keeps it so. Hence
such a tree is read back from what is written of it:
`parseStrict_render_of_parseStrict`.
-/

namespace SkinMarkup

/-! ## Trees that have been read -/

/-- A tag with safe names. -/
def Tag.SafeNames (t : Tag) : Prop :=
  isSafeName t.name = true ∧ ∀ a ∈ t.head.attributes, isSafeName a.name = true

instance (t : Tag) : Decidable t.SafeNames :=
  inferInstanceAs (Decidable (_ ∧ _))

theorem Event.not_end_of_nextMarkup_cdata {cs content rest : Text}
    (h : nextMarkup cs = .ok (.cdata content, rest)) : ¬ [']', ']', '>'] <:+: content := by
  unfold nextMarkup nextDeclaration nextCdata nextComment nextDoctype nextClosing nextInstruction
    nextOpening at h
  repeat' split at h
  all_goals cases h
  next hcut => exact not_cdata_end_of_cut hcut

namespace Markup

theorem printable_leafOf? {event : Event} (hwhole : event.Whole) {leaf : Leaf}
    (h : leafOf? event = some leaf) : leaf.Printable := by
  cases event with
  | text raw =>
    rw [leafOf?] at h
    split at h
    · next content _ =>
      split at h
      · cases h
      · next hne =>
        cases h
        exact ⟨hne, trimmed_trim content, by rintro ⟨⟩⟩
    · cases h
  | cdata content =>
    rw [leafOf?] at h
    split at h
    · cases h
    · next hne =>
      cases h
      obtain ⟨cs, -, hnext⟩ := hwhole []
      rw [Event.next, if_pos rfl] at hnext
      exact ⟨hne, trimmed_trim content, fun _ hend =>
        Event.not_end_of_nextMarkup_cdata hnext (hend.trans (trim_part content))⟩
  | _ => cases h

theorem printable_leaf? {w : Markup} (hw : w.Lexed) : ∀ leaf ∈ w.leaf?, leaf.Printable := by
  intro leaf hleaf
  induction w with
  | inert event _ rest ih =>
    obtain ⟨hwhole, -, hrest⟩ := hw
    rw [leaf?] at hleaf
    cases hfirst : leafOf? event with
    | none =>
      rw [hfirst, Option.none_or] at hleaf
      exact ih hrest hleaf
    | some found =>
      rw [hfirst] at hleaf
      cases hleaf
      exact printable_leafOf? hwhole hfirst
  | _ => cases hleaf

theorem printable_ofContent {scopes : List (List Namespace)} {content : Text} {leaf : Option Leaf}
    {tags : List Tag} (selfClosing : Bool) (hwhole : (Event.start selfClosing content).Whole)
    (hsafe : (Tag.ofContent scopes content leaf tags).SafeNames)
    (hleaf : ∀ x ∈ leaf, Leaf.Printable x) : (Tag.ofContent scopes content leaf tags).Printable := by
  obtain ⟨hname, hattributes⟩ := hsafe
  refine ⟨⟨hname, ?_, hattributes, ?_⟩, hleaf⟩
  · intro c hc
    obtain ⟨name, hcons⟩ := List.head?_eq_some_iff.mp hc
    have hcons : content.takeWhile (!isMarkupSpace ·) = c :: name := hcons
    have hcontent := List.takeWhile_append_dropWhile (p := (!isMarkupSpace ·)) (l := content)
    rw [hcons] at hcontent
    exact hwhole.starts selfClosing c (by rw [← hcontent]; rfl)
  · have hfst : (Tag.ofContent scopes content leaf tags).head.attributes.map (·.name) =
        (entriesOf content).map Prod.fst := by
      rw [Tag.ofContent, List.map_map]
      rfl
    rw [hfst, entriesOf]
    cases hentries : entriesOf? content with
    | none => exact List.nodup_nil
    | some entries =>
      have hnames : ∀ e ∈ entries, isSafeName e.1 = true := by
        intro e he
        apply hattributes (Attribute.ofEntry e)
        apply List.mem_map_of_mem
        rw [entriesOf, hentries]
        exact he
      obtain ⟨t, ht, rfl⟩ := exists_startTag hentries hname hnames
      rw [ht.entriesOf?_content] at hentries
      rw [Option.getD_some, map_fst_of_mapM_readEntry hentries, List.map_map]
      exact ht.nodup

/-- Tags that are read from lexed markup are printable if their names are safe. -/
theorem printable_tags {w : Markup} (hw : w.Lexed) (scopes : List (List Namespace))
    (hsafe : Tag.Everywhere Tag.SafeNames (w.tags scopes)) :
    Tag.Everywhere Tag.Printable (w.tags scopes) := by
  induction w generalizing scopes with
  | nil => exact Tag.everywhere_nil _
  | inert event _ rest ih => exact ih hw.2.2 scopes hsafe
  | empty content rest ih =>
    obtain ⟨hwhole, hrest⟩ := hw
    obtain ⟨⟨hsafe, -⟩, hothers⟩ := Tag.everywhere_cons.mp hsafe
    refine Tag.everywhere_cons.mpr ⟨⟨?_, Tag.everywhere_nil _⟩, ih hrest scopes hothers⟩
    exact printable_ofContent true hwhole hsafe (by rintro x ⟨⟩)
  | node content inside close rest ihinside ih =>
    obtain ⟨hwhole, hinside, -, hrest⟩ := hw
    obtain ⟨⟨hsafe, hbelow⟩, hothers⟩ := Tag.everywhere_cons.mp hsafe
    refine Tag.everywhere_cons.mpr ⟨⟨?_, ihinside hinside _ hbelow⟩, ih hrest scopes hothers⟩
    exact printable_ofContent false hwhole hsafe (printable_leaf? hinside)

end Markup

namespace Tag

theorem everywhere_map_bare {P : Tag → Prop} {ts : List Tag} :
    Everywhere P (ts.map bare) ↔ Everywhere (fun x => P x.bare) ts := by
  rw [Everywhere, preorderAll_map_bare, List.forall_mem_map]
  rfl

theorem printable_of_bare {t : Tag} (h : t.bare.Printable) : t.Printable := by
  obtain ⟨⟨hname, hstarts, hattributes, hnodup⟩, hleaf⟩ := h
  rw [bare_head] at hname hstarts hattributes hnodup
  have hnames : t.head.bare.attributes.map (·.name) = t.head.attributes.map (·.name) := by
    rw [TagHead.bare, List.map_map]
    rfl
  refine ⟨⟨hname, hstarts, fun a ha => ?_, hnames ▸ hnodup⟩, fun leaf hmem => ?_⟩
  · exact hattributes a.bare (List.mem_map_of_mem ha)
  · obtain ⟨hcontent, htrimmed, hcdata⟩ := hleaf leaf.bare (by rw [bare_leaf, hmem]; rfl)
    exact ⟨hcontent, htrimmed, hcdata⟩

theorem SafeNames.bare {t : Tag} (h : t.SafeNames) : t.bare.SafeNames := by
  refine ⟨by rw [bare_name]; exact h.1, ?_⟩
  rw [bare_head]
  intro a ha
  obtain ⟨x, hx, rfl⟩ := List.mem_map.mp ha
  exact h.2 x hx

end Tag

section

variable {t : Text} {root : Tag}

/-- **A tree that has been read is printable** if its names are safe. -/
theorem printable_of_parseStrict (hmark : t.head? ≠ some Source.mark) (h : parseStrict t = .ok root)
    (hsafe : ∀ x ∈ root.preorder, x.SafeNames) : Tag.Everywhere Tag.Printable [root] := by
  obtain ⟨w, -, hlexed, -, -, htags⟩ := exists_markup_of_parseStrict hmark h
  have hsafe' : Tag.Everywhere Tag.SafeNames ([root].map Tag.bare) :=
    Tag.everywhere_map_bare.mpr (Tag.everywhere_singleton.mpr fun x hx => (hsafe x hx).bare)
  have hprintable : Tag.Everywhere Tag.Printable ([root].map Tag.bare) := by
    rw [List.map_singleton, ← htags] at hsafe' ⊢
    exact Markup.printable_tags hlexed [] hsafe'
  exact fun x hx => Tag.printable_of_bare (Tag.everywhere_map_bare.mp hprintable x hx)

/-- The namespaces of a tree that has been read are those that are looked up. -/
theorem bind_of_parseStrict (hmark : t.head? ≠ some Source.mark) (h : parseStrict t = .ok root) :
    root.bind [] = root.bare := by
  obtain ⟨w, -, -, -, -, htags⟩ := exists_markup_of_parseStrict hmark h
  have hbound := w.bindAll_tags [] []
  rw [htags, ← List.map_singleton, Tag.bindAll_bare, List.map_singleton, Tag.bindAll] at hbound
  exact (List.cons.inj hbound).1

end

/-! ## Changes of attributes -/

/-- A change to the attributes of a tag. -/
inductive AttributeEdit where
  | put (name value : Text)
  | remove (name : Text)

namespace AttributeEdit

def apply : AttributeEdit → List Attribute → List Attribute
  | put name value => Attribute.put name value
  | remove name => Attribute.remove name

/-- A change that gives an attribute a safe name, if any. -/
def Safe : AttributeEdit → Prop
  | put name _ => isSafeName name = true
  | remove _ => True

/-- Changes the attributes of the tag at a location, if there is one. -/
def applyAt (edit : List Nat × AttributeEdit) (root : Tag) : Tag :=
  root.modifyAt (Tag.mapAttributes edit.2.apply) edit.1

theorem not_has_iff {name : Text} {attributes : List Attribute} :
    Attribute.has name attributes = false ↔ name ∉ attributes.map (·.name) := by
  rw [Attribute.has, Attribute.find?, Option.isSome_eq_false_iff, Option.isNone_iff_eq_none,
    List.find?_eq_none]
  simp

theorem names_put (name value : Text) (attributes : List Attribute) :
    (Attribute.put name value attributes).map (·.name) = attributes.map (·.name) ∨
      name ∉ attributes.map (·.name) ∧
        (Attribute.put name value attributes).map (·.name) = attributes.map (·.name) ++ [name] := by
  unfold Attribute.put
  split
  · left
    rw [List.map_map]
    apply List.map_congr_left
    intro a _
    rw [Function.comp_apply]
    split <;> rfl
  · next hhas =>
    right
    refine ⟨not_has_iff.mp (by simpa using hhas), ?_⟩
    rw [List.map_append]
    rfl

/-- **A safe change keeps a start tag printable.** -/
theorem printable_apply {edit : AttributeEdit} (hedit : edit.Safe) {head : TagHead}
    (h : head.Printable) :
    TagHead.Printable { head with attributes := edit.apply head.attributes } := by
  obtain ⟨hname, hstarts, hattributes, hnodup⟩ := h
  have hsafe : ∀ name ∈ head.attributes.map (·.name), isSafeName name = true := by
    rwa [List.forall_mem_map]
  -- Names decide, and a change adds at most one new name.
  suffices hnames : (∀ name ∈ (edit.apply head.attributes).map (·.name), isSafeName name = true) ∧
      ((edit.apply head.attributes).map (·.name)).Nodup by
    rw [List.forall_mem_map] at hnames
    exact ⟨hname, hstarts, hnames.1, hnames.2⟩
  cases edit with
  | put name value =>
    rcases names_put name value head.attributes with hsame | ⟨hnew, hadded⟩
    · rw [apply, hsame]
      exact ⟨hsafe, hnodup⟩
    · rw [apply, hadded]
      refine ⟨List.forall_mem_append.mpr ⟨hsafe, List.forall_mem_singleton.mpr hedit⟩, ?_⟩
      exact List.nodup_append.mpr ⟨hnodup, by simp, fun x hx y hy heq =>
        hnew (List.mem_singleton.mp hy ▸ heq ▸ hx)⟩
  | remove name =>
    have hsublist : List.Sublist (((remove name).apply head.attributes).map (·.name))
        (head.attributes.map (·.name)) := List.filter_sublist.map _
    exact ⟨fun x hx => hsafe x (hsublist.subset hx), hnodup.sublist hsublist⟩

end AttributeEdit

namespace Tag

theorem everywhere_set {P : Tag → Prop} {ts : List Tag} {child : Tag} (hts : Everywhere P ts)
    (hchild : Everywhere P [child]) (index : Nat) : Everywhere P (ts.set index child) := by
  induction ts generalizing index with
  | nil => exact hts
  | cons t ts ih =>
    obtain ⟨ht, hothers⟩ := everywhere_cons.mp hts
    cases index with
    | zero => exact everywhere_append.mpr ⟨hchild, hothers⟩
    | succ index => exact everywhere_cons.mpr ⟨ht, ih hothers index⟩

/-- What a change of one tag keeps, and what does not depend on children, holds
everywhere after the change. -/
theorem everywhere_modifyAt {P : Tag → Prop} {f : Tag → Tag}
    (hchildren : ∀ (t : Tag) (tags : List Tag), P t → P { t with tags })
    (hf : ∀ t, P t → P (f t)) (htags : ∀ t, (f t).tags = t.tags) {t : Tag}
    (h : Everywhere P [t]) (location : List Nat) : Everywhere P [t.modifyAt f location] := by
  induction location generalizing t with
  | nil =>
    obtain ⟨⟨ht, hbelow⟩, -⟩ := everywhere_cons.mp h
    rw [modifyAt]
    exact everywhere_cons.mpr ⟨⟨hf t ht, by rwa [htags]⟩, everywhere_nil P⟩
  | cons index rest ih =>
    rw [modifyAt]
    cases hchild : t.child? index with
    | none => exact h
    | some child =>
      obtain ⟨⟨ht, hbelow⟩, -⟩ := everywhere_cons.mp h
      have hmem : child ∈ t.tags := by
        unfold child? at hchild
        split at hchild
        · cases hchild
        · exact List.mem_of_getElem? hchild
      have hwithin : Everywhere P [child] := by
        rw [everywhere_singleton]
        exact fun x hx => hbelow x (mem_preorderAll_of_mem_preorder hmem hx)
      exact everywhere_cons.mpr ⟨⟨hchildren t _ ht, everywhere_set hbelow (ih hwithin) _⟩,
        everywhere_nil P⟩

/-! ## What is written of a tree -/

theorem render_congr {t t' : Tag} (depth : Nat) (hname : t'.head.name = t.head.name)
    (hattributes : t'.head.attributes.flatMap Attribute.render =
      t.head.attributes.flatMap Attribute.render)
    (hleaf : t'.leaf.map Leaf.render = t.leaf.map Leaf.render) (htags : t'.tags = [] ↔ t.tags = [])
    (hlines : renderLines (depth + 1) t'.tags = renderLines (depth + 1) t.tags) :
    renderAt depth [] t' = renderAt depth [] t := by
  obtain ⟨head, leaf, tags⟩ := t
  obtain ⟨head', leaf', tags'⟩ := t'
  dsimp only at hname hattributes hleaf htags hlines
  cases leaf <;> cases leaf' <;> cases tags <;> cases tags' <;>
    simp_all [renderAt]

/-- Namespaces and offsets are not written. -/
theorem renderLines_bindAll (ts : List Tag) (scopes : List (List Namespace)) (depth : Nat) :
    renderLines depth (bindAll scopes ts) = renderLines depth ts := by
  induction ts using trees_induction generalizing scopes depth with
  | nil => rfl
  | cons tag ts ihtags ihts =>
    rw [bindAll, renderLines, renderLines, ihts, bind_eq]
    congr 1
    apply render_congr
    · rfl
    · rw [TagHead.bare, List.flatMap_map]
      rfl
    · rw [Option.map_map]
      rfl
    · cases tag.tags <;> simp [bindAll]
    · exact ihtags _ _

theorem render_bind (t : Tag) (scopes : List (List Namespace)) :
    (t.bind scopes).render = t.render := by
  have h := renderLines_bindAll [t] scopes 0
  rw [bindAll, bindAll, renderLines, renderLines] at h
  exact List.append_cancel_right h

theorem render_bare (t : Tag) : t.bare.render = t.render := by
  have h := bindAll_bare [t] []
  rw [List.map_singleton, bindAll, bindAll, bindAll, bindAll, List.cons.injEq] at h
  rw [← render_bind t.bare [], h.1, render_bind]

end Tag

/-! ## The round trip -/

/-- A printable tree, written and read, is written as before. -/
theorem render_of_parseStrict_render {root : Tag} (h : Tag.Everywhere Tag.Printable [root]) :
    ∃ root', parseStrict root.render = .ok root' ∧ root'.bare = root.bind [] ∧
      root'.render = root.render := by
  obtain ⟨root', hparse, hbare⟩ := parseStrict_render h
  refine ⟨root', hparse, hbare, ?_⟩
  rw [← Tag.render_bare root', hbare, Tag.render_bind]

theorem printable_edits {root : Tag} (h : Tag.Everywhere Tag.Printable [root])
    {edits : List (List Nat × AttributeEdit)} (hedits : ∀ e ∈ edits, e.2.Safe) :
    Tag.Everywhere Tag.Printable [edits.foldl (fun tree e => AttributeEdit.applyAt e tree) root] := by
  induction edits generalizing root with
  | nil => exact h
  | cons e edits ih =>
    obtain ⟨he, hedits⟩ := List.forall_mem_cons.mp hedits
    have hchildren : ∀ (t : Tag) (tags : List Tag), t.Printable → Tag.Printable { t with tags } :=
      fun t tags ht => ⟨ht.head, ht.leaf⟩
    have hedit : ∀ t : Tag, t.Printable → (t.mapAttributes e.2.apply).Printable :=
      fun t ht => ⟨AttributeEdit.printable_apply he ht.head, ht.leaf⟩
    exact ih (Tag.everywhere_modifyAt hchildren hedit (fun _ => rfl) h e.1) hedits

/-- **A tree that has been read survives being written and read again.** Names,
namespaces, attributes, leaves and children are the same, and it is written as
before. After any changes of attributes the same holds of the changed tree, with
its namespaces looked up anew. -/
theorem parseStrict_render_of_parseStrict {t : Text} {root : Tag}
    (hmark : t.head? ≠ some Source.mark) (h : parseStrict t = .ok root)
    (hsafe : ∀ x ∈ root.preorder, x.SafeNames) :
    (∃ root', parseStrict root.render = .ok root' ∧ root'.bare = root.bare ∧
      root'.render = root.render) ∧
    ∀ edits : List (List Nat × AttributeEdit), (∀ e ∈ edits, e.2.Safe) →
      let edited := edits.foldl (fun tree e => AttributeEdit.applyAt e tree) root
      ∃ root', parseStrict edited.render = .ok root' ∧ root'.bare = edited.bind [] ∧
        root'.render = edited.render := by
  have hprintable := printable_of_parseStrict hmark h hsafe
  constructor
  · rw [← bind_of_parseStrict hmark h]
    exact render_of_parseStrict_render hprintable
  · intro edits hedits
    exact render_of_parseStrict_render (printable_edits hprintable hedits)

/-- Mixed content, references, a CDATA section with brackets and namespaces, with
an attribute that is changed and one that is deleted. -/
theorem parseStrict_render_of_mixed :
    let t := "<p:a xmlns:p='u' x='&lt;\"'> t &amp; u<b y='2'><![CDATA[ ]] ]]></b></p:a>".toList
    let edits := [([], AttributeEdit.put ['z'] ['"', '&']), ([1], AttributeEdit.remove ['y'])]
    ∃ root, t.head? ≠ some Source.mark ∧ parseStrict t = .ok root ∧
      (∀ x ∈ root.preorder, x.SafeNames) ∧ (∀ e ∈ edits, e.2.Safe) ∧
      (∃ root', parseStrict root.render = .ok root' ∧ root'.bare = root.bare ∧
        root'.render = root.render) ∧
      let edited := edits.foldl (fun tree e => AttributeEdit.applyAt e tree) root
      ∃ root', parseStrict edited.render = .ok root' ∧ root'.bare = edited.bind [] ∧
        root'.render = edited.render := by
  intro t edits
  have hmark : t.head? ≠ some Source.mark := by decide
  have hedits : ∀ e ∈ edits, e.2.Safe := by
    intro e he
    rcases List.mem_cons.mp he with rfl | he
    · rfl
    · rw [List.mem_singleton.mp he]
      trivial
  have hany : (parseStrict t).toOption.any
      (fun root => decide (∀ x ∈ root.preorder, x.SafeNames)) = true := by
    decide +kernel
  obtain ⟨root, hroot, hsafe⟩ := exists_of_any_toOption hany
  have hsafe := of_decide_eq_true hsafe
  obtain ⟨hread, hedited⟩ := parseStrict_render_of_parseStrict hmark hroot hsafe
  exact ⟨root, hmark, hroot, hsafe, hedits, hread, hedited edits hedits⟩

end SkinMarkup
