import SkinMarkup.Proofs.Attribute.Entries
import SkinMarkup.Proofs.Document.Locations
import SkinMarkup.Proofs.Tag.Scoped

/-!
# Trees that grow

A tree comes from a text, and copies of tags are added to it. Reading looks up a
prefix in the tags that are open, adding a copy looks it up in a list of all
declarations around, and both find the declaration that is the nearest. So a tree is
scoped and located whatever was added to it, see `Tag.settled_of_grown`.
-/

namespace SkinMarkup

/-! ## Open tags -/

namespace Builder

variable {s : Source} {b next : Builder} {tag : Tag} {opened others : List Tag}

/-- The namespace of a prefix inside open tags, innermost first. -/
def inForce (opened : List Tag) (p : Text) : Option Text :=
  Namespace.resolve p (opened.map (·.head.declarations))

theorem inForce_cons {p : Text} (hp : p ≠ []) (tag : Tag) (others : List Tag) :
    inForce (tag :: others) p = tag.head.nearest (inForce others) p := by
  rw [inForce, List.map_cons, Namespace.resolve_cons, TagHead.uriOf?_declarations hp]
  rfl

/-- Open tags, innermost first, each scoped in those around it. -/
def OpenScoped : List Tag → Prop
  | [] => True
  | tag :: others => tag.Scoped (inForce others) ∧ OpenScoped others

/-- What has been built is scoped. -/
structure Lexical (b : Builder) : Prop where
  root : ∀ tag ∈ b.root, tag.Scoped (inForce [])
  opened : OpenScoped b.opened

theorem openScoped_push (h : OpenScoped (tag :: others)) {child : Tag}
    (hchild : child.Scoped (inForce (tag :: others))) :
    OpenScoped (tag.push child :: others) :=
  ⟨h.1.push (hchild.congr fun _ hp => inForce_cons hp tag others), h.2⟩

theorem Lexical.attach (h : b.Lexical) (htag : tag.Scoped (inForce b.opened)) :
    (b.attach tag).Lexical := by
  obtain ⟨hroot, hopened⟩ := h
  unfold Builder.attach
  split
  · next parent others heq =>
    rw [heq] at hopened htag
    exact ⟨hroot, openScoped_push hopened htag⟩
  · next heq =>
    rw [heq] at htag
    refine ⟨?_, by rw [heq]; exact trivial⟩
    cases hr : b.root with
    | none =>
      rintro _ ⟨⟩
      exact htag
    | some r =>
      rintro _ ⟨⟩
      exact hroot r hr

/-- A new tag has the namespace that is in force for its prefix. -/
theorem scoped_of_openTag {offset : Nat} {content source : Text}
    (h : b.openTag s offset content source = .ok tag) : tag.Scoped (inForce b.opened) := by
  obtain ⟨-, shown, attributes, -, hattributes, rfl⟩ := openTag_eq_ok h
  refine .intro (nodup_name_attributesOf hattributes) ⟨?_, ?_⟩ ?_
  · intro hprefix
    have hprefix : prefixOf (WrittenAttribute.elementName content) = none := hprefix
    simp only [newTag, hprefix]
    rfl
  · intro p hprefix hp
    have hprefix : prefixOf (WrittenAttribute.elementName content) = some p := hprefix
    simp only [newTag, hprefix, Option.bind_some]
    rw [Namespace.resolve_cons, Attribute.uriOf?_declarations hp]
    rfl
  · rintro child ⟨⟩

/-- **A step keeps everything scoped.** -/
theorem Lexical.step {offset : Nat} {event : Event} (h : b.Lexical)
    (hstep : Step s b offset event next) : next.Lexical := by
  cases hstep with
  | skip hkind => exact h
  | leaf leaf hkind heq =>
    have hopened := h.opened
    rw [heq] at hopened
    exact ⟨h.root, hopened.1.of_head rfl rfl rfl hopened.1.inside, hopened.2⟩
  | opening hopen => exact ⟨h.root, scoped_of_openTag hopen, h.opened⟩
  | empty hopen =>
    have hscoped := scoped_of_openTag hopen
    exact h.attach (hscoped.of_head rfl rfl rfl hscoped.inside)
  | @closing _ tag others heq hname =>
    have hopened := h.opened
    rw [heq] at hopened
    have hothers : Lexical { b with opened := others } := ⟨h.root, hopened.2⟩
    exact hothers.attach (hopened.1.of_head rfl rfl rfl hopened.1.inside)

/-- Closing all tags leaves everything scoped. -/
theorem scoped_closeAll {stop : Nat} {inner : Option Tag} (h : OpenScoped opened)
    (hinner : ∀ tag ∈ inner, tag.Scoped (inForce opened)) :
    ∀ tag ∈ closeAll stop inner opened, tag.Scoped (inForce []) := by
  induction opened generalizing inner with
  | nil => exact hinner
  | cons tag others ih =>
    refine ih h.2 ?_
    rintro _ ⟨⟩
    refine h.1.of_head rfl rfl rfl ?_
    intro child hchild
    rcases List.mem_append.mp hchild with hold | hnew
    · exact h.1.inside child hold
    · exact (hinner child (Option.mem_toList.mp hnew)).congr fun _ hp => inForce_cons hp tag others

theorem Lexical.rootClosedAt (h : b.Lexical) (stop : Nat) :
    ∀ tag ∈ b.rootClosedAt stop, tag.Scoped (inForce []) := by
  rw [Builder.rootClosedAt]
  cases hr : b.root with
  | none => exact scoped_closeAll h.opened (by rintro _ ⟨⟩)
  | some r =>
    rintro _ ⟨⟩
    exact h.root r hr

end Builder

/-! ## Trees of texts -/

namespace Tag

/-- A whole tree in which every tag has the location that leads to it and the
namespace that the nearest tag around it declares. -/
structure Lexical (root : Tag) : Prop where
  located : root.Located []
  bound : root.Scoped fun _ => none

end Tag

/-- **What is read from a text is lexical**, whatever is wrong with the text. -/
theorem lexical_rootOf {t : Text} (hmark : t.head? ≠ some Source.mark) :
    (Source.rootOf t).Lexical := by
  obtain ⟨-, before, rest, -, hbuilt⟩ := Source.build_induction (fun _ b => b.Lexical) hmark
    ⟨by rintro _ ⟨⟩, trivial⟩
    (fun _ _ hlexical hstep => hlexical.step (Builder.step_cases hstep))
  refine ⟨located_rootOf hmark, ?_⟩
  rw [Source.rootOf]
  cases hroot : (Source.ofText t).build.1.rootClosedAt (width t) with
  | none =>
    -- The root without a name has nothing that could be wrong.
    refine .intro List.nodup_nil ⟨fun _ => rfl, ?_⟩ (by rintro child ⟨⟩)
    rintro p ⟨⟩
  | some root => exact hbuilt.rootClosedAt _ root hroot

/-! ## Adding copies -/

namespace Tag

variable {root copy : Tag} {location : List Nat}

theorem head?_render (t : Tag) : t.render.head? = some '<' := by
  obtain ⟨head, leaf, tags⟩ := t
  rw [render]
  cases leaf <;> cases tags <;> rw [renderAt] <;> rfl

/-- A copy is scoped in the declarations around its new place. -/
theorem scoped_adopt (scope : List Namespace) (location : List Nat) (h : copy.Lexical) :
    (copy.adopt scope location).Scoped fun p => Namespace.uriOf? p scope.reverse := by
  have hbelow := (everywhere_cons.mp h.bound.rebindable).1.2
  have hfewer : Rebindable (copy.mapAttributes (dropKnown scope)) :=
    ⟨(List.Sublist.map _ List.filter_sublist).nodup h.bound.distinct, h.bound.bound.unprefixed⟩
  have hrebindable : Everywhere Rebindable [copy.mapAttributes (dropKnown scope)] :=
    everywhere_cons.mpr ⟨⟨hfewer, hbelow⟩, everywhere_nil _⟩
  exact (scoped_rebind scope hrebindable).relink location

theorem scopeAt?_isSome (root : Tag) (location : List Nat) :
    (root.scopeAt? location).isSome = (root.descendant? location).isSome := by
  induction location generalizing root with
  | nil => rfl
  | cons index rest ih =>
    rw [scopeAt?, Tag.descendant?]
    cases root.child? index with
    | none => rfl
    | some child =>
      dsimp only
      rw [Option.isSome_map, ih]

/-- **What can come of adding a copy.** On every way that fails the tree is as it was. -/
theorem appendChild_cases (root : Tag) (location : List Nat) (child : Tag) :
    (∃ failure, root.appendChild location child = (.error failure, root) ∧
      (parseStrict child.render = .error failure ∨
        (∃ copy, parseStrict child.render = .ok copy) ∧ root.descendant? location = none ∧
          failure = .issue (.missingTag location))) ∨
    ∃ copy scope parent, parseStrict child.render = .ok copy ∧
      root.scopeAt? location = some scope ∧ root.descendant? location = some parent ∧
      root.appendChild location child = (.ok (), root.modifyAt
        (·.push (copy.adopt scope (location ++ [parent.childCount]))) location) := by
  have hsome := scopeAt?_isSome root location
  unfold appendChild
  cases hcopy : parseStrict child.render with
  | error failure => exact .inl ⟨failure, rfl, .inl rfl⟩
  | ok copy =>
    cases hscope : root.scopeAt? location with
    | none =>
      rw [hscope, Option.isSome_none, eq_comm, Option.isSome_eq_false_iff,
        Option.isNone_iff_eq_none] at hsome
      exact .inl ⟨_, rfl, .inr ⟨⟨copy, rfl⟩, hsome, rfl⟩⟩
    | some scope =>
      rw [hscope, Option.isSome_some, eq_comm, Option.isSome_iff_exists] at hsome
      obtain ⟨parent, hparent⟩ := hsome
      rw [hparent]
      exact .inr ⟨copy, scope, parent, rfl, rfl, rfl, rfl⟩

/-- The tree after a copy of a tag was to be added, whether that succeeds or fails. -/
def appended (root : Tag) (location : List Nat) (child : Tag) : Tag :=
  (root.appendChild location child).2

/-- **A lexical tree stays lexical when a copy is to be added to it.** The copy is read
from a text of its own, so nothing is asked of what is copied. -/
theorem Lexical.appended (h : root.Lexical) (location : List Nat) (child : Tag) :
    (root.appended location child).Lexical := by
  unfold Tag.appended
  rcases root.appendChild_cases location child with
    ⟨failure, hfailed, -⟩ | ⟨copy, scope, parent, hcopy, hscope, hparent, hgrown⟩
  · rw [hfailed]
    exact h
  · rw [hgrown]
    have hmark : child.render.head? ≠ some Source.mark := by
      rw [head?_render]
      decide
    have hlexical : copy.Lexical := by
      have hroot : copy = Source.rootOf child.render :=
        root_eq_of_parse hmark (parseStrict_eq_ok_iff.mp hcopy)
      rw [hroot]
      exact lexical_rootOf hmark
    constructor
    · refine h.located.modifyAt_push hparent ?_
      rw [List.nil_append]
      exact located_relink _ _
    · refine h.bound.modifyAt_push hscope ((scoped_adopt scope _ hlexical).congr ?_)
      intro p hp
      rw [Option.or_none]

/-- The trees that are made by reading texts and by adding copies of the tags of such
trees. A tag may be copied into its own tree. -/
inductive Grown : Tag → Prop where
  | read {t : Text} {options : ParseOptions} {document : Document}
      (hmark : t.head? ≠ some Source.mark) (hparse : parse options t = .ok document) :
      Grown document.root
  | append {root donor child : Tag} (location : List Nat) (hroot : Grown root)
      (hdonor : Grown donor) (hchild : child ∈ donor.preorder) :
      Grown (root.appended location child)

theorem Grown.lexical (h : root.Grown) : root.Lexical := by
  induction h with
  | read hmark hparse =>
    rw [root_eq_of_parse hmark hparse]
    exact lexical_rootOf hmark
  | @append root donor child location hroot hdonor hchild ih _ => exact ih.appended location child

/-! ## What holds of every tag -/

/-- A tag that has its place in the tree of `root`: its location leads to it, the tag
around it is found, and its namespace is the one that the nearest tag declares for its
prefix, from the tag itself up to the root. A name that starts with a colon has an
empty prefix, for which nothing is said. -/
structure Settled (root tag : Tag) : Prop where
  found : root.descendant? tag.head.location = some tag
  parent : (tag.head.location = [] ∧ tag = root ∧ root.parent? tag = none) ∨
    ∃ parent index, tag.head.location = parent.head.location ++ [index] ∧
      root.parent? tag = some parent ∧ parent.child? index = some tag
  unprefixed : prefixOf tag.name = none → tag.head.uri = []
  prefixed : ∀ p, prefixOf tag.name = some p → p ≠ [] →
    tag.head.uri = (declaredIn? p (root.chain tag.head.location)).getD []

/-- **Every tag of a tree stays settled, whatever is added to the tree.** -/
theorem settled_of_grown (h : root.Grown) : ∀ tag ∈ root.preorder, root.Settled tag := by
  intro tag htag
  obtain ⟨hlocated, hbound⟩ := h.lexical
  have hfound := hlocated.descendant?_location htag
  obtain ⟨hunprefixed, hprefixed⟩ := hbound.descendant? hfound
  refine ⟨hfound, hlocated.parent?_eq htag, hunprefixed, ?_⟩
  intro p hprefix hp
  rw [hprefixed p hprefix hp, Option.or_none]

/-- A tree with two declarations of one prefix, both in elements that are never
closed. A copy of the whole tree is added where the inner declaration holds. -/
theorem settled_of_shadowed :
    ∃ document, parse ⟨false, true, false⟩ "<p:a xmlns:p='1'><b xmlns:p='2'><p:c/>".toList =
        .ok document ∧
      let root := document.root.appended [0, 0] document.root
      root.preorder.map (fun tag => (tag.head.location, tag.head.uri)) =
        [([], ['1']), ([0], []), ([0, 0], ['2']), ([0, 0, 0], ['2']), ([0, 0, 0, 0], []),
          ([0, 0, 0, 0, 0], ['2'])] ∧
      ∀ tag ∈ root.preorder, root.Settled tag := by
  have hany : (parse ⟨false, true, false⟩ "<p:a xmlns:p='1'><b xmlns:p='2'><p:c/>".toList).toOption.any
      (fun document => decide ((document.root.appended [0, 0] document.root).preorder.map
        (fun tag => (tag.head.location, tag.head.uri)) =
          [([], ['1']), ([0], []), ([0, 0], ['2']), ([0, 0, 0], ['2']), ([0, 0, 0, 0], []),
            ([0, 0, 0, 0, 0], ['2'])])) = true := by
    decide +kernel
  obtain ⟨document, hparse, hnamespaces⟩ := exists_of_any_toOption hany
  have hread : document.root.Grown := .read (by decide) hparse
  have hgrown := Grown.append [0, 0] hread hread (mem_preorder_self document.root)
  exact ⟨document, hparse, of_decide_eq_true hnamespaces, settled_of_grown hgrown⟩

/-- A tag whose own name and attribute names neither start nor end with a colon. -/
def colonsInside (tag : Tag) : Bool :=
  (tag.name :: tag.head.attributes.map (·.name)).all fun name =>
    decide (name.head? ≠ some ':' ∧ name.getLast? ≠ some ':')

/-- Quotes are allowed in attribute names, and values get other quotes when they are
written. So a copy can have an element that stood in a CDATA section, here one with
an empty prefix, which the attribute `xmlns` declares. -/
theorem exists_empty_prefix_grown :
    ∃ donor root grown,
      parseStrict "<a '=\"x\" b=\"'\" \"='y'><![CDATA[='w' c'=\"\"><:x xmlns=\"u\"/>]]></a>".toList =
        .ok donor ∧
      parseStrict "<h/>".toList = .ok root ∧ root.append [] donor = .ok grown ∧
      (donor.preorder ++ root.preorder).all colonsInside = true ∧
      ∃ tag ∈ grown.preorder, prefixOf tag.name = some [] ∧
        declaredIn? [] (grown.chain tag.head.location) = none ∧ tag.head.uri = ['u'] := by
  have hany : (parseStrict
      "<a '=\"x\" b=\"'\" \"='y'><![CDATA[='w' c'=\"\"><:x xmlns=\"u\"/>]]></a>".toList).toOption.any
      (fun donor => (parseStrict "<h/>".toList).toOption.any fun root =>
        (root.append [] donor).toOption.any fun grown =>
          (donor.preorder ++ root.preorder).all colonsInside &&
            grown.preorder.any fun tag => decide (prefixOf tag.name = some [] ∧
              declaredIn? [] (grown.chain tag.head.location) = none ∧ tag.head.uri = ['u'])) = true := by
    decide +kernel
  obtain ⟨donor, hdonor, hany⟩ := exists_of_any_toOption hany
  obtain ⟨root, hroot, hany⟩ := exists_of_any_toOption hany
  obtain ⟨grown, hgrown, hany⟩ := exists_of_any_toOption hany
  obtain ⟨hcolons, hany⟩ := Bool.and_eq_true_iff.mp hany
  obtain ⟨tag, htag, hlaw⟩ := List.any_eq_true.mp hany
  exact ⟨donor, root, grown, hdonor, hroot, hgrown, hcolons, tag, htag, of_decide_eq_true hlaw⟩

end Tag

end SkinMarkup
