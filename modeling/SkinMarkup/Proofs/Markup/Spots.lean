import SkinMarkup.Proofs.Markup.Revision
import SkinMarkup.Visibility

/-!
# Where elements stand

The spots of a tree are its elements in document order, with their depths and
with a mark on those in a block of declarations. Depths in this order determine
the tree. An element can be left out with everything below it, so the elements
that are visible together with all their ancestors are spots too.

Markup has spots of its own, and they are those of its tags
(`Markup.element_spots`).
-/

namespace SkinMarkup

/-- An element that stands `level` elements deep. -/
structure Spot (α : Type) where
  level : Nat
  /-- Whether the element is, or is in, a block of declarations. -/
  inside : Bool
  element : α

def Spot.map {α β : Type} (f : α → β) (p : Spot α) : Spot β :=
  ⟨p.level, p.inside, f p.element⟩

namespace Tag

/-- The names and values of a tag's attributes. -/
def entries (t : Tag) : List (Text × Text) :=
  t.head.attributes.map Attribute.entry

/-- What a start tag says. -/
def element (t : Tag) : Text × List (Text × Text) :=
  (t.name, t.entries)

mutual

/-- The spots of a tag and of the tags below it. A tag that is not kept is left
out with everything below it. -/
def spots (d : Dialect) (keep : Bool → Tag → Bool) (inside : Bool) (level : Nat) :
    Tag → List (Spot Tag)
  | ⟨head, leaf, tags⟩ =>
    let inside := inside || localOf head.name == d.declarations
    if keep inside ⟨head, leaf, tags⟩ then
      ⟨level, inside, ⟨head, leaf, tags⟩⟩ :: spotsAll d keep inside (level + 1) tags
    else
      []

/-- The spots of the tags of a list and of the tags below them. -/
def spotsAll (d : Dialect) (keep : Bool → Tag → Bool) (inside : Bool) (level : Nat) :
    List Tag → List (Spot Tag)
  | [] => []
  | t :: ts => spots d keep inside level t ++ spotsAll d keep inside level ts

end

variable {d : Dialect} {keep : Bool → Tag → Bool}

theorem spots_eq (inside : Bool) (level : Nat) (t : Tag) :
    t.spots d keep inside level =
      let inside := inside || t.localName == d.declarations
      if keep inside t then
        ⟨level, inside, t⟩ :: spotsAll d keep inside (level + 1) t.tags
      else [] := by
  cases t
  rw [spots]
  rfl

theorem element_bare (t : Tag) : t.bare.element = t.element := by
  rw [element, element, entries, entries, bare_name, bare_head, TagHead.bare, List.map_map]
  rfl

/-- A choice of tags by what their start tags say. -/
def Respects (keep : Bool → Tag → Bool) : Prop :=
  ∀ inside x y, x.element = y.element → keep inside x = keep inside y

theorem localName_congr {x y : Tag} (h : x.element = y.element) : x.localName = y.localName := by
  have hname : x.name = y.name := congrArg Prod.fst h
  exact congrArg localOf hname

/-- What stands at spots does not depend on offsets. -/
theorem element_spotsAll_bare (hkeep : Respects keep) (inside : Bool) (level : Nat) (ts : List Tag) :
    (spotsAll d keep inside level (ts.map bare)).map (Spot.map element) =
      (spotsAll d keep inside level ts).map (Spot.map element) := by
  induction ts using trees_induction generalizing inside level with
  | nil => rfl
  | cons t ts ihtags ihts =>
    have hname := localName_congr (element_bare t)
    have hcond := hkeep (inside || t.localName == d.declarations) _ _ (element_bare t)
    rw [List.map_cons, spotsAll, spotsAll, List.map_append, List.map_append, ihts, spots_eq,
      spots_eq, hname]
    dsimp only
    rw [hcond, bare_tags]
    split
    · rw [List.map_cons, List.map_cons, ihtags, Spot.map, Spot.map, element_bare]
    · rfl

end Tag

/-- Keeps every element. -/
def everything : Bool → Tag → Bool := fun _ _ => true

theorem respects_everything : Tag.Respects everything := fun _ _ _ _ => rfl

/-- What the content of a start tag says. -/
def elementOf (content : Text) : Text × List (Text × Text) :=
  (WrittenAttribute.elementName content, entriesOf content)

theorem element_ofContent (scopes : List (List Namespace)) (content : Text) (leaf : Option Leaf)
    (tags : List Tag) : (Tag.ofContent scopes content leaf tags).element = elementOf content := by
  rw [Tag.element, Tag.entries, Tag.ofContent, elementOf, List.map_map]
  have hid : Attribute.entry ∘ Attribute.ofEntry = id := rfl
  rw [hid, List.map_id]
  rfl

/-! ## Values of attributes -/

/-- The value of an attribute. -/
def valueIn? (name : Text) (entries : List (Text × Text)) : Option Text :=
  (entries.find? (·.1 = name)).map (·.2)

theorem Tag.value?_eq (t : Tag) (name : Text) : t.head.value? name = valueIn? name t.entries := by
  rw [TagHead.value?, Attribute.find?, valueIn?, Tag.entries, List.find?_map, Option.map_map]
  rfl

section

variable {name : Text} {entries : List (Text × Text)}

theorem valueIn?_map {f : Text × Text → Text × Text} {g : Text → Text → Text}
    (hf : ∀ other value, f (other, value) = (other, g other value)) :
    valueIn? name (entries.map f) = (valueIn? name entries).map (g name) := by
  induction entries with
  | nil => rfl
  | cons e entries ih =>
    obtain ⟨other, value⟩ := e
    by_cases h : other = name
    · simp [valueIn?, hf, h]
    · simpa [valueIn?, hf, h] using ih

theorem valueIn?_append_of_not_mem {more : List (Text × Text)} (h : ∀ e ∈ more, e.1 ≠ name) :
    valueIn? name (entries ++ more) = valueIn? name entries := by
  have hnone : more.find? (·.1 = name) = none := by
    rw [List.find?_eq_none]
    intro e he
    simpa using h e he
  rw [valueIn?, valueIn?, List.find?_append, hnone, Option.or_none]

theorem mem_of_valueIn? {value : Text} (h : valueIn? name entries = some value) :
    (name, value) ∈ entries := by
  obtain ⟨⟨other, found⟩, hfind, rfl⟩ := Option.map_eq_some_iff.mp h
  have hname : other = name := by simpa using List.find?_some hfind
  exact hname ▸ List.mem_of_find?_eq_some hfind

end

/-- What the visibility of an element depends on. -/
def Membership.ofElement (element : Text × List (Text × Text)) : Membership :=
  ⟨localOf element.1, valueIn? Word.includeIn element.2, valueIn? Word.excludeFrom element.2⟩

theorem Membership.ofTag_eq (x : Tag) : Membership.ofTag x = .ofElement x.element := by
  rw [Membership.ofTag, Tag.value?_eq, Tag.value?_eq]
  rfl

/-- A tag is visible as its name and its lists say. -/
theorem Tag.isVisible_eq {d : Dialect} {state : Text} (hstate : state ≠ []) (x : Tag) :
    x.isVisible d (some state) = (Membership.ofElement x.element).visibleIn d state := by
  have hactive : activeState (some state) = some state := by
    simp [activeState, hstate]
  rw [Tag.isVisible, hactive, ← Membership.ofTag_eq]

/-! ## Markup -/

/-- Whether a start tag with the given content starts a block of declarations. -/
def Dialect.isBlock (d : Dialect) (content : Text) : Bool :=
  localOf (WrittenAttribute.elementName content) == d.declarations

namespace Markup

/-- An element of its own with the given content. -/
def alone (content : Text) : Tag :=
  Tag.ofContent [] content none []

/-- The spots of markup, with the contents of start tags. -/
def spots (d : Dialect) (keep : Bool → Tag → Bool) (inside : Bool) (level : Nat) :
    Markup → List (Spot Text)
  | nil => []
  | inert _ _ rest => rest.spots d keep inside level
  | empty content rest =>
    let inner := inside || d.isBlock content
    (if keep inner (alone content) then [⟨level, inner, content⟩] else []) ++
      rest.spots d keep inside level
  | node content within _ rest =>
    let inner := inside || d.isBlock content
    (if keep inner (alone content) then
        ⟨level, inner, content⟩ :: within.spots d keep inner (level + 1)
      else []) ++
      rest.spots d keep inside level

variable {d : Dialect} {keep : Bool → Tag → Bool}

theorem isBlock_ofContent (scopes : List (List Namespace)) (content : Text) (leaf : Option Leaf)
    (tags : List Tag) :
    ((Tag.ofContent scopes content leaf tags).localName == d.declarations) = d.isBlock content := rfl

/-- **The spots of markup are those of its tags.** -/
theorem element_spots (hkeep : Tag.Respects keep) (w : Markup) (scopes : List (List Namespace))
    (inside : Bool) (level : Nat) :
    (Tag.spotsAll d keep inside level (w.tags scopes)).map (Spot.map Tag.element) =
      (w.spots d keep inside level).map (Spot.map elementOf) := by
  induction w generalizing scopes inside level with
  | nil => rfl
  | inert event _ rest ih => exact ih scopes inside level
  | empty content rest ih =>
    have hcond := fun inner => hkeep inner (Tag.ofContent scopes content none []) (alone content)
      (by rw [alone, element_ofContent, element_ofContent])
    rw [tags, Tag.spotsAll, List.map_append, ih, spots, List.map_append, Tag.spots_eq]
    dsimp only
    rw [isBlock_ofContent, hcond]
    split
    · rw [List.map_cons, List.map_cons, Spot.map, element_ofContent]
      rfl
    · rfl
  | node content within close rest ihwithin ih =>
    have hcond := fun inner => hkeep inner (Tag.ofContent scopes content within.leaf?
      (within.tags (declarationsOf content :: scopes))) (alone content)
      (by rw [alone, element_ofContent, element_ofContent])
    rw [tags, Tag.spotsAll, List.map_append, ih, spots, List.map_append, Tag.spots_eq]
    dsimp only
    rw [isBlock_ofContent, hcond]
    split
    · rw [List.map_cons, List.map_cons, Spot.map, element_ofContent]
      congr 2
      exact ihwithin _ _ _
    · rfl

/-- The spots of a document are those of its markup. -/
theorem element_spots_of_tags (hkeep : Tag.Respects keep) {w : Markup} {root : Tag}
    (h : w.tags [] = [root.bare]) :
    (root.spots d keep false 0).map (Spot.map Tag.element) =
      (w.spots d keep false 0).map (Spot.map elementOf) := by
  have hbare := Tag.element_spotsAll_bare (d := d) hkeep false 0 [root]
  rw [← element_spots hkeep w [], h]
  rw [List.map_singleton] at hbare
  rw [hbare, Tag.spotsAll, Tag.spotsAll, List.append_nil]

/-! ## What stands at spots -/

section

variable {w : Markup} {inside : Bool} {level : Nat} {p : Spot Text}

theorem spots_text (raw : Text) (rest : Markup) :
    (text raw rest).spots d keep inside level = rest.spots d keep inside level := by
  unfold text
  split <;> rfl

theorem spots_of_outer (h : w.Outer) : w.spots d keep inside level = [] := by
  induction w with
  | nil => rfl
  | inert event hinert rest ih => exact ih h.2
  | empty content rest ih => cases h
  | node content within close rest ihwithin ih => cases h

/-- An element at a spot has a start tag. -/
theorem mem_events_of_mem_spots (hp : p ∈ w.spots d keep inside level) :
    ∃ selfClosing, Event.start selfClosing p.element ∈ w.events := by
  induction w generalizing inside level with
  | nil => cases hp
  | inert event hinert rest ih =>
    obtain ⟨selfClosing, hmem⟩ := ih hp
    exact ⟨selfClosing, List.mem_cons_of_mem event hmem⟩
  | empty content rest ih =>
    rcases List.mem_append.mp hp with hp | hp
    · split at hp
      · rw [List.mem_singleton.mp hp]
        exact ⟨true, List.mem_cons_self⟩
      · cases hp
    · obtain ⟨selfClosing, hmem⟩ := ih hp
      exact ⟨selfClosing, List.mem_cons_of_mem _ hmem⟩
  | node content within close rest ihwithin ih =>
    rcases List.mem_append.mp hp with hp | hp
    · split at hp
      · rcases List.mem_cons.mp hp with rfl | hp
        · exact ⟨false, List.mem_cons_self⟩
        · obtain ⟨selfClosing, hmem⟩ := ihwithin hp
          exact ⟨selfClosing, events_inside_node hmem⟩
      · cases hp
    · obtain ⟨selfClosing, hmem⟩ := ih hp
      exact ⟨selfClosing, events_behind_node hmem⟩

/-- An element at a spot is kept. -/
theorem keep_of_mem_spots (hp : p ∈ w.spots d keep inside level) :
    keep p.inside (alone p.element) = true := by
  induction w generalizing inside level with
  | nil => cases hp
  | inert event hinert rest ih => exact ih hp
  | empty content rest ih =>
    rw [spots, List.mem_append] at hp
    rcases hp with hp | hp
    · split at hp
      · next hkeep =>
        rw [List.mem_singleton.mp hp]
        exact hkeep
      · cases hp
    · exact ih hp
  | node content within close rest ihwithin ih =>
    rw [spots, List.mem_append] at hp
    rcases hp with hp | hp
    · split at hp
      · next hkeep =>
        rcases List.mem_cons.mp hp with rfl | hp
        · exact hkeep
        · exact ihwithin hp
      · cases hp
    · exact ih hp

/-- A block of declarations and everything in one is marked. -/
theorem inside_of_mem_spots (hp : p ∈ w.spots d keep inside level)
    (h : (inside || d.isBlock p.element) = true) : p.inside = true := by
  induction w generalizing inside level with
  | nil => cases hp
  | inert event hinert rest ih => exact ih hp h
  | empty content rest ih =>
    rcases List.mem_append.mp hp with hp | hp
    · split at hp
      · cases List.mem_singleton.mp hp
        exact h
      · cases hp
    · exact ih hp h
  | node content within close rest ihwithin ih =>
    rcases List.mem_append.mp hp with hp | hp
    · split at hp
      · rcases List.mem_cons.mp hp with rfl | hp
        · exact h
        · refine ihwithin hp ?_
          rcases Bool.or_eq_true_iff.mp h with h | h <;> simp [h]
      · cases hp
    · exact ih hp h

theorem level_of_mem_spots (hp : p ∈ w.spots d keep inside level) : level ≤ p.level := by
  induction w generalizing inside level with
  | nil => cases hp
  | inert event hinert rest ih => exact ih hp
  | empty content rest ih =>
    rcases List.mem_append.mp hp with hp | hp
    · split at hp
      · rw [List.mem_singleton.mp hp]
      · cases hp
    · exact ih hp
  | node content within close rest ihwithin ih =>
    rcases List.mem_append.mp hp with hp | hp
    · split at hp
      · rcases List.mem_cons.mp hp with rfl | hp
        · exact Nat.le_refl _
        · exact Nat.le_of_succ_le (ihwithin hp)
      · cases hp
    · exact ih hp

/-- Another start tag of the root stands at the first spot. -/
theorem Single.exists_below (h : w.Single) {selfClosing : Bool} {content : Text}
    (hfirst : w.first? = some (selfClosing, content)) (d : Dialect) (keep : Bool → Tag → Bool) :
    ∃ below : List (Spot Text), (∀ p ∈ below, 0 < p.level) ∧
      ∀ content', d.isBlock content' = d.isBlock content →
        keep (d.isBlock content) (alone content') = true →
        (w.setFirst content').spots d keep false 0 =
          ⟨0, d.isBlock content, content'⟩ :: below := by
  induction w with
  | nil => cases hfirst
  | inert event hinert rest ih => exact ih h.2 hfirst
  | empty other rest ih =>
    cases hfirst
    have hrest : rest.Outer := h
    refine ⟨[], List.forall_mem_nil _, fun content' hname hkeep => ?_⟩
    rw [Markup.setFirst, spots, hname, Bool.false_or, if_pos hkeep, spots_of_outer hrest]
    rfl
  | node other within close rest ihwithin ih =>
    cases hfirst
    have hrest : rest.Outer := h
    refine ⟨within.spots d keep (d.isBlock content) 1, fun p hp => level_of_mem_spots hp,
      fun content' hname hkeep => ?_⟩
    rw [Markup.setFirst, spots, hname, Bool.false_or, if_pos hkeep, spots_of_outer hrest, List.append_nil]

theorem first?_setFirst {selfClosing : Bool} {content : Text}
    (hfirst : w.first? = some (selfClosing, content)) (content' : Text) :
    (w.setFirst content').first? = some (selfClosing, content') := by
  induction w with
  | nil => cases hfirst
  | inert event hinert rest ih => exact ih hfirst
  | empty other rest ih =>
    cases hfirst
    rfl
  | node other within close rest ihwithin ih =>
    cases hfirst
    rfl

theorem setFirst_setFirst (w : Markup) (content content' : Text) :
    (w.setFirst content).setFirst content' = w.setFirst content' := by
  induction w with
  | inert event hinert rest ih => rw [setFirst, setFirst, setFirst, ih]
  | _ => rfl

theorem setFirst_eq_self {selfClosing : Bool} {content : Text}
    (hfirst : w.first? = some (selfClosing, content)) : w.setFirst content = w := by
  induction w with
  | nil => rfl
  | inert event hinert rest ih => rw [setFirst, ih hfirst]
  | empty other rest ih =>
    cases hfirst
    rfl
  | node other within close rest ihwithin ih =>
    cases hfirst
    rfl

end

end Markup

end SkinMarkup
