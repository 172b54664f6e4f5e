import SkinMarkup.Proofs.Document.Appending
import SkinMarkup.Proofs.Document.Writable

/-!
# Fragments stand on their own

A fragment is a tag of a tree with the prefixes that the root declares. Where no other tag
around it declares one, the root is the only place outside of it where a prefix can come
from, so that all names in it have the namespaces that they had (`Scoped.forward`), and it
is read back as that tag (`fragment_of_parseStrict`).

Names that start with a colon are left out here too: the attribute `xmlns`, which gives them
a namespace, is not forwarded (`not_selfContained_of_emptyPrefix`).
-/

namespace SkinMarkup

/-! ## Names with a prefix -/

namespace Tag

mutual

/-- A tree in which names that start with a colon are in no namespace. -/
def forgetEmpty : Tag → Tag
  | ⟨head, leaf, tags⟩ =>
    ⟨{ head with uri := if prefixOf head.name = some [] then [] else head.uri }, leaf,
      forgetEmptyAll tags⟩

/-- Trees in which names that start with a colon are in no namespace. -/
def forgetEmptyAll : List Tag → List Tag
  | [] => []
  | t :: ts => forgetEmpty t :: forgetEmptyAll ts

end

theorem forgetEmptyAll_eq_map (ts : List Tag) : forgetEmptyAll ts = ts.map forgetEmpty := by
  induction ts with
  | nil => rw [forgetEmptyAll, List.map_nil]
  | cons t ts ih => rw [forgetEmptyAll, List.map_cons, ih]

theorem forgetEmpty_eq (t : Tag) :
    t.forgetEmpty =
      ⟨{ t.head with uri := if prefixOf t.head.name = some [] then [] else t.head.uri }, t.leaf,
        t.tags.map forgetEmpty⟩ := by
  cases t
  rw [forgetEmpty, forgetEmptyAll_eq_map]

variable {outer : Text → Option Text} {root t x : Tag}

/-- **In a scoped tree namespaces are looked up as they are,** if the scopes around it give
what it is scoped in. -/
theorem Scoped.forgetEmpty_bind {scopes : List (List Namespace)} (h : t.Scoped outer)
    (hscopes : ∀ p, p ≠ [] → Namespace.resolve p scopes = outer p) :
    (t.bind scopes).forgetEmpty = t.bare.forgetEmpty := by
  induction h generalizing scopes with
  | @intro outer tag distinct bound below ih =>
    have hinner : ∀ p, p ≠ [] →
        Namespace.resolve p (tag.head.declarations :: scopes) = tag.head.nearest outer p := by
      intro p hp
      rw [Namespace.resolve_cons, TagHead.uriOf?_declarations hp, hscopes p hp]
      rfl
    have huri : (if prefixOf tag.head.name = some [] then [] else tag.head.lookup scopes) =
        if prefixOf tag.head.name = some [] then [] else tag.head.uri := by
      split
      · rfl
      · next hne =>
        rw [TagHead.lookup]
        cases hqualified : prefixOf tag.head.name with
        | none => exact (bound.unprefixed hqualified).symm
        | some p =>
          have hp : p ≠ [] := fun hnil => hne (hqualified.trans (congrArg some hnil))
          rw [Option.bind_some, hinner p hp, bound.prefixed p hqualified hp]
    have htags : (bindAll (tag.head.declarations :: scopes) tag.tags).map forgetEmpty =
        (tag.tags.map bare).map forgetEmpty := by
      rw [bindAll_eq_map, List.map_map, List.map_map]
      exact List.map_congr_left fun child hchild => ih child hchild hinner
    rw [bind_eq, bare_eq, forgetEmpty_eq, forgetEmpty_eq]
    simp only [TagHead.bare, htags]
    congr 2

/-! ## What the root declares -/

theorem mem_forwarded {a : Attribute} :
    a ∈ forwarded root t ↔ a ∈ root.head.attributes ∧
      startsWith Namespace.marker a.name = true ∧ Attribute.has a.name t.head.attributes = false := by
  simp [forwarded]

/-- The root forwards nothing to itself. -/
theorem forwarded_self (root : Tag) : forwarded root root = [] := by
  refine List.filter_eq_nil_iff.mpr fun a ha => ?_
  have hhas : Attribute.has a.name root.head.attributes = true := by
    rw [Attribute.has, Attribute.find?, List.find?_isSome]
    exact ⟨a, ha, decide_eq_true rfl⟩
  simp [hhas]

theorem forward_self (root : Tag) : root.mapAttributes (· ++ forwarded root root) = root := by
  rw [forwarded_self]
  cases root
  simp [mapAttributes]

/-- A prefix that the tag does not declare is declared as on the root. -/
theorem find?_forwarded {name : Text} (hmarked : startsWith Namespace.marker name = true)
    (hnew : Attribute.has name t.head.attributes = false) :
    Attribute.find? name (forwarded root t) = Attribute.find? name root.head.attributes := by
  rw [Attribute.find?, Attribute.find?, forwarded, List.find?_filter]
  congr 1
  funext a
  by_cases h : a.name = name <;> simp [h, hmarked, hnew]

/-- A tag with the declarations of the root has attributes of different names. -/
theorem distinct_forward (ht : t.head.Distinct) (hroot : root.head.Distinct) :
    (t.mapAttributes (· ++ forwarded root t)).head.Distinct := by
  rw [TagHead.Distinct, mapAttributes, List.map_append, List.nodup_append]
  refine ⟨ht, (List.Sublist.map _ List.filter_sublist).nodup hroot, ?_⟩
  rintro name hmem _ hforwarded rfl
  obtain ⟨a, ha, rfl⟩ := List.mem_map.mp hforwarded
  obtain ⟨-, -, hnew⟩ := mem_forwarded.mp ha
  exact AttributeEdit.not_has_iff.mp hnew hmem

/-- **A tag with the declarations of the root needs nothing around it,** if only the root
declares prefixes there. -/
theorem Scoped.forward (h : t.Scoped outer) (hroot : root.head.Distinct)
    (houter : ∀ p, p ≠ [] → outer p = root.head.value? (Namespace.marker ++ p)) :
    (t.mapAttributes (· ++ forwarded root t)).Scoped fun _ => none := by
  have hnearest : ∀ p, p ≠ [] →
      (t.mapAttributes (· ++ forwarded root t)).head.nearest (fun _ => none) p =
        t.head.nearest outer p := by
    intro p hp
    rw [TagHead.nearest, TagHead.nearest, houter p hp, TagHead.value?, TagHead.value?, TagHead.value?,
      mapAttributes, Attribute.find?, List.find?_append, Option.or_none]
    change ((Attribute.find? _ _).or (Attribute.find? _ _)).map _ = _
    cases hfound : Attribute.find? (Namespace.marker ++ p) t.head.attributes with
    | some a => rfl
    | none =>
      have hnew : Attribute.has (Namespace.marker ++ p) t.head.attributes = false := by
        rw [Attribute.has, hfound]
        rfl
      have hmarked : startsWith Namespace.marker (Namespace.marker ++ p) = true := by
        rw [startsWith, after?_append]
        rfl
      rw [find?_forwarded hmarked hnew]
      rfl
  refine .intro (distinct_forward h.distinct hroot) ⟨h.bound.unprefixed, fun p hprefix hp => ?_⟩
    fun child hchild => (h.inside child hchild).congr fun p hp => (hnearest p hp).symm
  rw [hnearest p hp]
  exact h.bound.prefixed p hprefix hp

/-- **What is around a tag that declares no prefix is around the tags in it,** on the way
to a location. -/
theorem Scoped.of_silent {location : List Nat} (h : x.Scoped outer)
    (hx : x.descendant? location = some t)
    (hsilent : ∀ front, front <+: location → front ≠ location → ∀ y, x.descendant? front = some y →
      ∀ a ∈ y.head.attributes, startsWith Namespace.marker a.name = false) : t.Scoped outer := by
  induction location generalizing x with
  | nil =>
    cases hx
    exact h
  | cons index rest ih =>
    rw [Tag.descendant?] at hx
    cases hchild : x.child? index with
    | none =>
      rw [hchild] at hx
      cases hx
    | some child =>
      rw [hchild] at hx
      have hown := hsilent [] List.nil_prefix (List.cons_ne_nil _ _).symm x rfl
      refine ih ((h.inside child (child?_mem hchild)).congr fun p _ => ?_) hx
        fun front hfront hne y hy => ?_
      · have hnone : x.head.value? (Namespace.marker ++ p) = none := by
          rw [TagHead.value?, Option.map_eq_none_iff, Attribute.find?, List.find?_eq_none]
          intro a ha hname
          have hmarked := hown a ha
          rw [of_decide_eq_true hname, startsWith, after?_append] at hmarked
          cases hmarked
        rw [TagHead.nearest, hnone, Option.none_or]
      · refine hsilent (index :: front) (List.cons_prefix_cons.mpr ⟨rfl, hfront⟩)
          (fun heq => hne (List.cons.inj heq).2) y ?_
        rw [Tag.descendant?, hchild]
        exact hy

/-- A tag with the declarations of the root is printable. -/
theorem printable_forward (hroot : root.Printable) (h : Everywhere Printable [t]) :
    Everywhere Printable [t.mapAttributes (· ++ forwarded root t)] := by
  obtain ⟨⟨⟨⟨hname, hstarts, hattributes, hnodup⟩, hleaf⟩, hbelow⟩, -⟩ := everywhere_cons.mp h
  refine everywhere_cons.mpr ⟨⟨⟨⟨hname, hstarts, ?_, distinct_forward hnodup hroot.head.nodup⟩, hleaf⟩,
    hbelow⟩, everywhere_nil _⟩
  refine List.forall_mem_append.mpr ⟨hattributes, fun a ha => ?_⟩
  exact hroot.head.attributes a (mem_forwarded.mp ha).1

theorem renderAt_forward (depth : Nat) (root t : Tag) :
    renderAt depth (forwarded root t) t =
      renderAt depth [] (t.mapAttributes (· ++ forwarded root t)) := by
  generalize forwarded root t = extra
  obtain ⟨head, leaf, tags⟩ := t
  cases leaf <;> cases tags <;> simp [renderAt, mapAttributes]

end Tag

/-! ## Documents -/

variable {text : Text} {root t : Tag}

/-- A fragment is the tag with the declarations of the root, as it is written. -/
theorem Tag.Located.renderFragment_eq (h : root.Located []) (ht : t ∈ root.preorder) :
    root.renderFragment t = (t.mapAttributes (· ++ forwarded root t)).render := by
  rw [renderFragment]
  split
  · next hlocation =>
    have hfound := h.descendant?_location ht
    rw [hlocation] at hfound
    cases hfound
    rw [forward_self]
  · exact renderAt_forward 0 root t

/-- No tag strictly between the root and a tag declares a prefix. -/
def Tag.ClearTo (root t : Tag) : Prop :=
  ∀ x ∈ root.preorder, x.head.location ≠ [] → x.head.location <+: t.head.location →
    x.head.location ≠ t.head.location →
    ∀ a ∈ x.head.attributes, startsWith Namespace.marker a.name = false

instance (root t : Tag) : Decidable (root.ClearTo t) :=
  inferInstanceAs (Decidable (∀ x ∈ root.preorder, x.head.location ≠ [] →
    x.head.location <+: t.head.location → x.head.location ≠ t.head.location →
    ∀ a ∈ x.head.attributes, startsWith Namespace.marker a.name = false))

/-- A tag of a lexical tree needs nothing but the declarations of the root, if no tag
between them declares a prefix. -/
theorem Tag.Lexical.scoped_forward (h : root.Lexical) (ht : t ∈ root.preorder)
    (hbetween : root.ClearTo t) :
    (t.mapAttributes (· ++ forwarded root t)).Scoped fun _ => none := by
  have hfound := h.located.descendant?_location ht
  cases hlocation : t.head.location with
  | nil =>
    rw [hlocation] at hfound
    cases hfound
    rw [forward_self]
    exact h.bound
  | cons index rest =>
    rw [hlocation] at hfound
    have hstep := hfound
    rw [descendant?] at hstep
    cases hchild : root.child? index with
    | none =>
      rw [hchild] at hstep
      cases hstep
    | some child =>
      rw [hchild] at hstep
      have hscoped : t.Scoped (root.head.nearest fun _ => none) := by
        refine (h.bound.inside child (child?_mem hchild)).of_silent hstep
          fun front hfront hne y hy => ?_
        have hplace : root.descendant? (index :: front) = some y := by
          rw [descendant?, hchild]
          exact hy
        have hy := (h.located.descendant? hplace).location_eq
        rw [List.nil_append] at hy
        refine hbetween y (mem_preorder_of_descendant? hplace) ?_ ?_ ?_
        · rw [hy]
          exact List.cons_ne_nil _ _
        · rw [hy, hlocation]
          exact List.cons_prefix_cons.mpr ⟨rfl, hfront⟩
        · rw [hy, hlocation]
          exact fun heq => hne (List.cons.inj heq).2
      exact hscoped.forward h.bound.distinct fun p _ => Option.or_none

/-- **Fragments are self-contained.** What is read from a fragment is the tag as it was, with
the declarations of the root behind its own attributes. -/
theorem fragment_of_parseStrict (hmark : text.head? ≠ some Source.mark)
    (hparse : parseStrict text = .ok root) (hsafe : ∀ x ∈ root.preorder, x.SafeNames)
    (ht : t ∈ root.preorder)
    (hbetween : root.ClearTo t) :
    (t.head.location = [] → t = root ∧ Tag.forwarded root t = []) ∧
    ∃ fragment, parseStrict (root.renderFragment t) = .ok fragment ∧
      fragment.bare.forgetEmpty =
        (t.mapAttributes (· ++ Tag.forwarded root t)).bare.forgetEmpty := by
  have hread : root = Source.rootOf text :=
    root_eq_of_parse hmark (parseStrict_eq_ok_iff.mp hparse)
  have hlexical : root.Lexical := hread ▸ lexical_rootOf hmark
  have hroot := (writable_of_parseStrict hparse root (Tag.mem_preorder_self root)).printable
    (hsafe root (Tag.mem_preorder_self root))
  have htag := printable_of_mem_preorder hparse ht fun x hx =>
    hsafe x (Tag.mem_preorder_trans hx ht)
  constructor
  · intro hlocation
    have hfound := hlexical.located.descendant?_location ht
    rw [hlocation] at hfound
    cases hfound
    exact ⟨rfl, Tag.forwarded_self root⟩
  · obtain ⟨fragment, hfragment, hbare⟩ := parseStrict_render (Tag.printable_forward hroot htag)
    refine ⟨fragment, hlexical.located.renderFragment_eq ht ▸ hfragment, ?_⟩
    rw [hbare]
    exact (hlexical.scoped_forward ht hbetween).forgetEmpty_bind fun _ _ => rfl

/-- A tag that redeclares one of two prefixes, in a tag that declares none: the other one
is forwarded. -/
theorem fragment_of_redeclaredPrefix :
    let text := "<e:r xmlns:e='u' xmlns:w='v'><m xmlns='d'><e:g xmlns:w='z'>\t<w:c/></e:g></m></e:r>".toList
    let written := "<e:g xmlns:w=\"z\" xmlns:e=\"u\">\n\t<w:c />\n</e:g>".toList
    ∃ root t, (text.head? ≠ some Source.mark ∧ parseStrict text = .ok root ∧
        (∀ x ∈ root.preorder, x.SafeNames) ∧ t ∈ root.preorder ∧ root.ClearTo t) ∧
      root.renderFragment t = written ∧
      (t.head.location = [] → t = root ∧ Tag.forwarded root t = []) ∧
      ∃ fragment, parseStrict (root.renderFragment t) = .ok fragment ∧
        fragment.bare.forgetEmpty =
          (t.mapAttributes (· ++ Tag.forwarded root t)).bare.forgetEmpty := by
  intro text written
  have hmark : text.head? ≠ some Source.mark := by decide
  have hany : ((parseStrict text).toOption.any fun root =>
      decide (∀ x ∈ root.preorder, x.SafeNames) && root.preorder.any fun t =>
        decide (root.ClearTo t) &&
        decide (root.renderFragment t = written)) = true := by
    decide +kernel
  obtain ⟨root, hparse, hany⟩ := exists_of_any_toOption hany
  rw [Bool.and_eq_true, List.any_eq_true] at hany
  obtain ⟨hsafe, t, ht, hproperties⟩ := hany
  rw [Bool.and_eq_true] at hproperties
  obtain ⟨hbetween, htext⟩ := hproperties
  have hbetween := of_decide_eq_true hbetween
  have hsafe := of_decide_eq_true hsafe
  exact ⟨root, t, ⟨hmark, hparse, hsafe, ht, hbetween⟩, of_decide_eq_true htext,
    fragment_of_parseStrict hmark hparse hsafe ht hbetween⟩

/-- The attribute `xmlns` is not forwarded, but it gives names that start with a colon their
namespace. -/
theorem not_selfContained_of_emptyPrefix :
    let text := "<r xmlns='u'><:x/></r>".toList
    ∃ root t fragment, (text.head? ≠ some Source.mark ∧ parseStrict text = .ok root ∧
        (∀ x ∈ root.preorder, x.SafeNames) ∧ t ∈ root.preorder ∧ root.ClearTo t) ∧
      parseStrict (root.renderFragment t) = .ok fragment ∧ fragment.name = t.name ∧
      t.head.uri = ['u'] ∧ fragment.head.uri = [] := by
  intro text
  have hmark : text.head? ≠ some Source.mark := by decide
  have hany : ((parseStrict text).toOption.any fun root =>
      decide (∀ x ∈ root.preorder, x.SafeNames) && root.preorder.any fun t =>
        decide (root.ClearTo t) &&
        (parseStrict (root.renderFragment t)).toOption.any fun fragment =>
          decide (fragment.name = t.name ∧ t.head.uri = ['u'] ∧ fragment.head.uri = [])) = true := by
    decide +kernel
  obtain ⟨root, hparse, hany⟩ := exists_of_any_toOption hany
  rw [Bool.and_eq_true, List.any_eq_true] at hany
  obtain ⟨hsafe, t, ht, hproperties⟩ := hany
  rw [Bool.and_eq_true] at hproperties
  obtain ⟨hbetween, hfragment⟩ := hproperties
  obtain ⟨fragment, hfragment, hnamespaces⟩ := exists_of_any_toOption hfragment
  exact ⟨root, t, fragment, ⟨hmark, hparse, of_decide_eq_true hsafe, ht, of_decide_eq_true hbetween⟩,
    hfragment, of_decide_eq_true hnamespaces⟩

end SkinMarkup
