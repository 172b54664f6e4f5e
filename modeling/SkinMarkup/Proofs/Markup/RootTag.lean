import SkinMarkup.Proofs.Document.Reading
import SkinMarkup.Proofs.Markup.Printing
import SkinMarkup.Proofs.Scan.Root
import SkinMarkup.Proofs.State.Revisions

/-!
# Another start tag for the root

The start tag of the root stands in the text where the tree says
(`exists_rootSplit`). A document in which it says something else has the same text
around it (`splitAtRoot_source`), and its tree has the same elements below the root; only
the namespaces that are in force there may be others (`Document.exists_retagged`).
-/

namespace SkinMarkup

variable {t : Text} {root : Tag}

/-- A text is divided at its first element token, if that starts an element. -/
theorem splitAtRoot_of_elements {token : Token} {others : List Token}
    (h : (scan t).elements = token :: others) (hstart : token.isStart = true) :
    ∃ before after, splitAtRoot t = some ⟨before, token, after⟩ ∧
      t = before ++ token.text ++ after ∧ width before = token.start := by
  have hmem : token ∈ (scan t).tokens :=
    Scan.mem_tokens_of_mem_elements (h ▸ List.mem_cons_self)
  obtain ⟨x, hx, rfl⟩ := List.mem_map.mp hmem
  obtain ⟨s, hs⟩ : ∃ s, (scan t).segments.find? (·.token.isElement) = some s :=
    Option.isSome_iff_exists.mp
      (List.find?_isSome.mpr ⟨x, hx, Token.isElement_of_isStart hstart⟩)
  obtain ⟨helement, front, behind, hsegments, hfront⟩ := List.find?_eq_some_iff_append.mp hs
  replace hfront : ∀ y ∈ front, y.token.isElement = false := fun y hy => by simpa using hfront y hy
  have hsame : s.token = x.token := by
    have hskipped : (front.map (·.token)).filter (·.isElement) = [] := by
      simpa [List.filter_eq_nil_iff] using hfront
    rw [Scan.elements, Scan.tokens, hsegments, List.map_append, List.filter_append, hskipped,
      List.nil_append, List.map_cons, List.filter_cons_of_pos helement] at h
    exact (List.cons.inj h).1
  refine ⟨Segment.sourceAll front ++ s.gap, Segment.sourceAll behind ++ (scan t).tail, ?_, ?_, ?_⟩
  · rw [← hsame] at hstart ⊢
    simp [splitAtRoot, hsegments, Segment.splitAtElement_append hfront helement, hstart]
  · calc t = (scan t).source := (source_scan t).symm
      _ = _ := by
        rw [Scan.source, hsegments, ← hsame]
        simp [Segment.sourceAll, Segment.source]
  · have hconsecutive := Scan.consecutive_scanFrom 0 0 t
    change Segment.Consecutive 0 (scan t).segments at hconsecutive
    rw [hsegments] at hconsecutive
    rw [← hsame, hconsecutive.start_eq, Nat.zero_add]
    rfl

/-- **A document is divided at the start tag of its root,** which stands where the tree
says. -/
theorem exists_rootSplit (hplain : Plain t) (hparse : parseStrict t = .ok root) :
    ∃ split, splitAtRoot t = some split ∧ t = split.before ++ split.root.text ++ split.after ∧
      width split.before = root.head.start ∧
      width split.before + width split.root.text = root.head.startTagEnd := by
  obtain ⟨-, hmarks⟩ := scan_eq_marks_of_parseStrict hplain hparse
  rw [Tag.marks_eq] at hmarks
  obtain ⟨token, others, helements, hmark, -⟩ := List.map_eq_cons_iff.mp hmarks
  have hstart : token.isStart = true := by
    have hkind : token.kind = root.startMark.1 := congrArg Prod.fst hmark
    rw [Token.isStart, hkind, Tag.startMark]
    split <;> rfl
  have hspan : token.span = ⟨root.head.start, root.head.startTagEnd⟩ := by
    have hspan : token.span = root.startMark.2 := congrArg Prod.snd hmark
    rw [hspan, Tag.startMark]
    split
    · next hself =>
      have hread := readFrom_of_parseStrict hplain.unmarked hparse root
        (by simp [Tag.preorderAll, Tag.preorder_eq])
      rw [(hread.empty hself).2.1]
    · rfl
  obtain ⟨before, after, hsplit, htext, hwidth⟩ := splitAtRoot_of_elements helements hstart
  refine ⟨_, hsplit, htext, hwidth.trans (congrArg Span.start hspan), ?_⟩
  rw [hwidth]
  exact congrArg Span.stop hspan

/-! ## Start tags that differ in one attribute -/

/-- Start tags that say the same, but for the attribute `name`. -/
structure SameBut (name content content' : Text) : Prop where
  element : WrittenAttribute.elementName content' = WrittenAttribute.elementName content
  entries : (entriesOf content').filter (·.1 ≠ name) = (entriesOf content).filter (·.1 ≠ name)

section

variable {name content content' : Text}

theorem Attribute.declarations_remove (hname : Namespace.declaredBy name = none)
    (attributes : List Attribute) : declarations (remove name attributes) = declarations attributes := by
  rw [declarations, remove, List.filterMap_filter]
  refine List.filterMap_congr fun a _ => ?_
  by_cases h : a.name = name
  · simp [h, declaration?, hname]
  · simp [h]

theorem SameBut.remove_attributes (h : SameBut name content content') :
    Attribute.remove name ((entriesOf content').map Attribute.ofEntry) =
      Attribute.remove name ((entriesOf content).map Attribute.ofEntry) := by
  have hfilter : ∀ entries : List (Text × Text), Attribute.remove name (entries.map Attribute.ofEntry) =
      (entries.filter (·.1 ≠ name)).map Attribute.ofEntry := fun entries => by
    rw [Attribute.remove, List.filter_map]
    rfl
  rw [hfilter, hfilter, h.entries]

/-- An attribute that declares no namespace does not matter for the others. -/
theorem SameBut.declarationsOf_eq (h : SameBut name content content')
    (hname : Namespace.declaredBy name = none) : declarationsOf content' = declarationsOf content := by
  rw [declarationsOf, ← Attribute.declarations_remove hname, h.remove_attributes,
    Attribute.declarations_remove hname, declarationsOf]

theorem SameBut.ofContent_eq (h : SameBut name content content')
    (hname : Namespace.declaredBy name = none) (scopes : List (List Namespace)) (leaf : Option Leaf)
    (tags : List Tag) :
    (Tag.ofContent scopes content' leaf tags).mapAttributes (Attribute.remove name) =
      (Tag.ofContent scopes content leaf tags).mapAttributes (Attribute.remove name) := by
  have hdeclarations := h.declarationsOf_eq hname
  rw [declarationsOf, declarationsOf] at hdeclarations
  simp only [Tag.ofContent, Tag.mapAttributes, hdeclarations, h.element, h.remove_attributes]

end

/-- Offsets have no part in which attributes there are. -/
theorem Tag.bare_mapAttributes_remove (name : Text) (t : Tag) :
    (t.mapAttributes (Attribute.remove name)).bare = t.bare.mapAttributes (Attribute.remove name) := by
  have hattributes : (Attribute.remove name t.head.attributes).map Attribute.bare =
      Attribute.remove name (t.head.attributes.map Attribute.bare) := by
    rw [Attribute.remove, Attribute.remove, List.filter_map]
    rfl
  rw [Tag.bare_eq, Tag.mapAttributes, Tag.mapAttributes, Tag.bare_eq]
  simp only [TagHead.bare, hattributes]

namespace Markup

variable {w : Markup} {selfClosing : Bool} {content : Text}

/-- **What stands inside the root stays there, whatever its start tag says.** -/
theorem Single.exists_inside (h : w.Single) (hfirst : w.first? = some (selfClosing, content)) :
    ∃ inside : Markup, ∀ content' scopes, (w.setFirst content').tags scopes =
      [Tag.ofContent scopes content' inside.leaf?
        (inside.tags (declarationsOf content' :: scopes))] := by
  induction w with
  | nil => cases hfirst
  | inert event hinert rest ih => exact ih h.2 hfirst
  | empty other rest ih =>
    have hrest : rest.Outer := h
    refine ⟨nil, fun content' scopes => ?_⟩
    simp only [Markup.setFirst, tags, tags_of_outer hrest, leaf?]
  | node other inside close rest ihinside ih =>
    have hrest : rest.Outer := h
    refine ⟨inside, fun content' scopes => ?_⟩
    simp only [Markup.setFirst, tags, tags_of_outer hrest]

/-- **A document whose root has another start tag is a document,** and below the root its
tree is the old one. -/
theorem Document.exists_retagged (h : w.Document) (htags : w.tags [] = [root.bare])
    (hfirst : w.first? = some (selfClosing, content)) {content' : Text}
    (hreplaces : Replaces selfClosing content content') :
    ∃ root', parseStrict (w.setFirst content').source = .ok root' ∧ ∃ inside : Markup,
      root.bare = Tag.ofContent [] content inside.leaf? (inside.tags [declarationsOf content]) ∧
      root'.bare = Tag.ofContent [] content' inside.leaf? (inside.tags [declarationsOf content']) := by
  obtain ⟨inside, hinside⟩ := h.single.exists_inside hfirst
  obtain ⟨root', hparse, htags'⟩ := (h.setFirst hfirst hreplaces).exists_parseStrict
  refine ⟨root', hparse, inside, ?_, ?_⟩
  · have hold := hinside content []
    rw [setFirst_eq_self hfirst, htags] at hold
    exact (List.cons.inj hold).1
  · rw [hinside] at htags'
    exact (List.cons.inj htags').1.symm

/-- Its tree is the old one with the attributes of that tag, in which all namespaces are
looked up anew. -/
theorem Document.exists_rebound (h : w.Document) (htags : w.tags [] = [root.bare])
    (hfirst : w.first? = some (selfClosing, content)) {content' : Text}
    (hreplaces : Replaces selfClosing content content') :
    ∃ root', parseStrict (w.setFirst content').source = .ok root' ∧ root'.bare =
      (root.mapAttributes fun _ => (entriesOf content').map Attribute.ofEntry).bind [] := by
  obtain ⟨root', hparse, inside, hold, hnew⟩ := h.exists_retagged htags hfirst hreplaces
  refine ⟨root', hparse, ?_⟩
  have hname : root.head.name = WrittenAttribute.elementName content :=
    root.bare_name.symm.trans (congrArg (·.head.name) hold)
  have hleaf : root.leaf.map Leaf.bare = inside.leaf? :=
    root.bare_leaf.symm.trans (congrArg (·.leaf) hold)
  have hbelow : Tag.bindAll [declarationsOf content'] root.tags =
      inside.tags [declarationsOf content'] := by
    have hbare : root.tags.map Tag.bare = inside.tags [declarationsOf content] :=
      root.bare_tags.symm.trans (congrArg (·.tags) hold)
    rw [← Tag.bindAll_bare, hbare, bindAll_tags]
  have hattributes : ((entriesOf content').map Attribute.ofEntry).map Attribute.bare =
      (entriesOf content').map Attribute.ofEntry := by
    rw [List.map_map]
    rfl
  rw [hnew, ← hbelow, ← hleaf, Tag.bind_eq, Tag.ofContent]
  simp only [Tag.mapAttributes, TagHead.bare, TagHead.lookup, TagHead.declarations, hattributes,
    hreplaces.name, hname]
  rfl

/-- **A document whose root differs in one attribute has the same tree but for it.** -/
theorem Document.exists_sameBut (h : w.Document) (htags : w.tags [] = [root.bare])
    (hfirst : w.first? = some (selfClosing, content)) {content' name : Text}
    (hreplaces : Replaces selfClosing content content') (hsame : SameBut name content content')
    (hname : Namespace.declaredBy name = none) :
    ∃ root', parseStrict (w.setFirst content').source = .ok root' ∧
      root'.entries = entriesOf content' ∧
      (root'.mapAttributes (Attribute.remove name)).bare =
        (root.mapAttributes (Attribute.remove name)).bare := by
  obtain ⟨root', hparse, inside, hold, hnew⟩ := h.exists_retagged htags hfirst hreplaces
  refine ⟨root', hparse, ?_, ?_⟩
  · have helement := congrArg Tag.element hnew
    rw [Tag.element_bare, element_ofContent] at helement
    exact congrArg Prod.snd helement
  · rw [Tag.bare_mapAttributes_remove, Tag.bare_mapAttributes_remove, hold, hnew,
      hsame.declarationsOf_eq hname, hsame.ofContent_eq hname]

end Markup

end SkinMarkup
