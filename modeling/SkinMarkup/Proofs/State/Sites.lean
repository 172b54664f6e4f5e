import Mathlib.Data.List.Forall2
import SkinMarkup.Proofs.State.Documents
import SkinMarkup.State.Create

/-!
# Where components stand

A blank state hides the components directly below the root. Containers do not
count: what is in one stands where the container stands. The sites of a tree are
its elements in document order with their depths and with where they stand in this
sense. Markup has sites too; they are those of its tags
(`Markup.element_sites_of_tags`), and its start tags stand at them
(`Markup.Document.texts_startTokens`).
-/

namespace SkinMarkup

/-- Where an element stands. -/
inductive Standing where
  | root
  /-- Directly below the root, or in containers that are. -/
  | direct
  /-- Deeper than that, or in a block of declarations. -/
  | deeper
deriving DecidableEq

/-- Where the elements in an element stand, given its name and where it stands. -/
def Dialect.below (d : Dialect) (name : Text) : Standing → Standing
  | .root => if localOf name = d.declarations then .deeper else .direct
  | .direct =>
    if d.isContainer (localOf name) = true ∧ localOf name ≠ d.declarations then .direct else .deeper
  | .deeper => .deeper

/-- Whether an element is a component by its name: it is not for the editor alone,
and its local name starts with a capital letter. -/
def Dialect.isComponentName (d : Dialect) (name : Text) : Bool :=
  prefixOf name != some d.workingPrefix &&
    (localOf name).head?.any fun c => decide ('A' ≤ c) && decide (c ≤ 'Z')

/-- Whether an element is a component that stands directly below the root. -/
def Dialect.isScoped (d : Dialect) (standing : Standing) (name : Text) : Bool :=
  decide (standing = .direct) && !d.isContainer (localOf name) &&
    localOf name != d.declarations && d.isComponentName name

/-- An element that stands `level` elements deep. -/
structure Site (α : Type) where
  level : Nat
  standing : Standing
  element : α

def Site.map {α β : Type} (f : α → β) (p : Site α) : Site β :=
  ⟨p.level, p.standing, f p.element⟩

namespace Tag

mutual

/-- The sites of a tag and of the tags below it. -/
def sites (d : Dialect) (standing : Standing) (level : Nat) : Tag → List (Site Tag)
  | ⟨head, leaf, tags⟩ =>
    ⟨level, standing, ⟨head, leaf, tags⟩⟩ :: sitesAll d (d.below head.name standing) (level + 1) tags

/-- The sites of the tags of a list and of the tags below them. -/
def sitesAll (d : Dialect) (standing : Standing) (level : Nat) : List Tag → List (Site Tag)
  | [] => []
  | t :: ts => sites d standing level t ++ sitesAll d standing level ts

end

variable {d : Dialect}

theorem sites_eq (standing : Standing) (level : Nat) (t : Tag) :
    t.sites d standing level =
      ⟨level, standing, t⟩ :: sitesAll d (d.below t.name standing) (level + 1) t.tags := by
  cases t
  rw [sites]
  rfl

/-- What stands at sites does not depend on offsets. -/
theorem element_sitesAll_bare (standing : Standing) (level : Nat) (ts : List Tag) :
    (sitesAll d standing level (ts.map bare)).map (Site.map element) =
      (sitesAll d standing level ts).map (Site.map element) := by
  induction ts using trees_induction generalizing standing level with
  | nil => rfl
  | cons t ts ihtags ihts =>
    rw [List.map_cons, sitesAll, sitesAll, List.map_append, List.map_append, ihts, sites_eq,
      sites_eq, List.map_cons, List.map_cons, bare_tags, ihtags, bare_name, Site.map, Site.map,
      element_bare]

end Tag

namespace Markup

variable {d : Dialect} {w : Markup} {standing : Standing} {level : Nat}

/-- The sites of markup. An element is given by whether it is empty and by the
content of its start tag. -/
def sites (d : Dialect) (standing : Standing) (level : Nat) : Markup → List (Site (Bool × Text))
  | nil => []
  | inert _ _ rest => rest.sites d standing level
  | empty content rest => ⟨level, standing, true, content⟩ :: rest.sites d standing level
  | node content inside _ rest =>
    ⟨level, standing, false, content⟩ ::
      (inside.sites d (d.below (WrittenAttribute.elementName content) standing) (level + 1) ++
        rest.sites d standing level)

/-- **The sites of markup are those of its tags.** -/
theorem element_sites (w : Markup) (scopes : List (List Namespace)) (standing : Standing)
    (level : Nat) :
    (Tag.sitesAll d standing level (w.tags scopes)).map (Site.map Tag.element) =
      (w.sites d standing level).map (Site.map fun e => elementOf e.2) := by
  induction w generalizing scopes standing level with
  | nil => rfl
  | inert event _ rest ih => exact ih scopes standing level
  | empty content rest ih =>
    rw [tags, Tag.sitesAll, List.map_append, ih, sites, List.map_cons, Tag.sites_eq,
      List.map_cons, Site.map, element_ofContent]
    rfl
  | node content within close rest ihwithin ih =>
    rw [tags, Tag.sitesAll, List.map_append, ih, sites, List.map_cons, List.map_append,
      Tag.sites_eq, List.map_cons, Site.map, element_ofContent]
    refine congrArg₂ (· ++ ·) (congrArg₂ List.cons rfl ?_) rfl
    exact ihwithin _ _ _

theorem element_sites_of_tags {root : Tag} (h : w.tags [] = [root.bare]) :
    (root.sites d .root 0).map (Site.map Tag.element) =
      (w.sites d .root 0).map (Site.map fun e => elementOf e.2) := by
  have hbare := Tag.element_sitesAll_bare (d := d) .root 0 [root]
  rw [← element_sites w [], h]
  rw [List.map_singleton] at hbare
  rw [hbare, Tag.sitesAll, Tag.sitesAll, List.append_nil]

/-! ## What stands at sites -/

theorem sites_of_outer (h : w.Outer) : w.sites d standing level = [] := by
  induction w with
  | nil => rfl
  | inert event hinert rest ih => exact ih h.2
  | empty content rest ih => cases h
  | node content within close rest ihwithin ih => cases h

/-- An element at a site has a start tag. -/
theorem mem_events_of_mem_sites {p : Site (Bool × Text)} (hp : p ∈ w.sites d standing level) :
    Event.start p.element.1 p.element.2 ∈ w.events := by
  induction w generalizing standing level with
  | nil => cases hp
  | inert event hinert rest ih => exact List.mem_cons_of_mem event (ih hp)
  | empty content rest ih =>
    rcases List.mem_cons.mp hp with rfl | hp
    · exact List.mem_cons_self
    · exact List.mem_cons_of_mem _ (ih hp)
  | node content within close rest ihwithin ih =>
    rcases List.mem_cons.mp hp with rfl | hp
    · exact List.mem_cons_self
    · rcases List.mem_append.mp hp with hp | hp
      · exact events_inside_node (ihwithin hp)
      · exact events_behind_node (ih hp)

/-- The root stands at the first site, and no other element is as far up. -/
theorem Single.exists_sites (h : w.Single) {selfClosing : Bool} {content : Text}
    (hfirst : w.first? = some (selfClosing, content)) (d : Dialect) :
    ∃ below : List (Site (Bool × Text)), (∀ p ∈ below, p.level ≠ 0) ∧
      ∀ content', WrittenAttribute.elementName content' = WrittenAttribute.elementName content →
        (w.setFirst content').sites d .root 0 = ⟨0, .root, selfClosing, content'⟩ :: below := by
  have hlevel : ∀ (w : Markup) standing level, ∀ p ∈ w.sites d standing (level + 1), p.level ≠ 0 := by
    intro w
    induction w with
    | nil => exact fun _ _ _ hp => nomatch hp
    | inert event hinert rest ih => exact ih
    | empty content rest ih =>
      intro standing level p hp
      rcases List.mem_cons.mp hp with rfl | hp
      · exact Nat.succ_ne_zero level
      · exact ih standing level p hp
    | node content within close rest ihwithin ih =>
      intro standing level p hp
      rcases List.mem_cons.mp hp with rfl | hp
      · exact Nat.succ_ne_zero level
      · rcases List.mem_append.mp hp with hp | hp
        · exact ihwithin _ (level + 1) p hp
        · exact ih standing level p hp
  induction w with
  | nil => cases h
  | inert event hinert rest ih => exact ih h.2 hfirst
  | empty other rest ih =>
    cases hfirst
    exact ⟨[], nofun, fun content' _ => by rw [Markup.setFirst, sites, sites_of_outer h]⟩
  | node other within close rest ihwithin ih =>
    cases hfirst
    refine ⟨_, hlevel within (d.below (WrittenAttribute.elementName content) .root) 0,
      fun content' hname => ?_⟩
    rw [Markup.setFirst, sites, sites_of_outer h, List.append_nil, hname]

/-! ## Start tags in a text -/

/-- The tokens of markup that start an element. -/
theorem Spans.texts_starts {gap gap' : Text} {segments segments' : List Segment}
    (h : w.Spans gap segments gap' segments') (d : Dialect) (standing : Standing) (level : Nat) :
    ((segments.map (·.token)).filter (·.isStart)).map (·.text) =
      ((w.sites d standing level).map fun p => (Event.start p.element.1 p.element.2).source) ++
        ((segments'.map (·.token)).filter (·.isStart)).map (·.text) := by
  induction w generalizing gap segments gap' segments' standing level with
  | nil =>
    obtain ⟨-, rfl⟩ := h
    rfl
  | inert event hinert rest ih =>
    rw [Spans] at h
    split at h
    · exact ih h standing level
    · obtain ⟨token, others, rfl, htoken, -, h⟩ := h
      have hstart := Token.isStart_eq_false htoken
      rw [List.map_cons, List.filter_cons_of_neg (by simp [hstart]), ih h standing level]
      rfl
  | empty content rest ih =>
    obtain ⟨token, others, rfl, htoken, h⟩ := h
    rw [List.map_cons, List.filter_cons_of_pos (isStart_of_isToken true htoken),
      List.map_cons, ih h standing level, htoken.text]
    rfl
  | node content inside close rest ihinside ih =>
    obtain ⟨token, inner, gap₁, token', others, rfl, htoken, hinside, htoken', h⟩ := h
    have hstart := htoken'.isStart_closing
    rw [List.map_cons, List.filter_cons_of_pos (isStart_of_isToken false htoken),
      List.map_cons,
      ihinside hinside (d.below (WrittenAttribute.elementName content) standing) (level + 1),
      List.map_cons, List.filter_cons_of_neg (by simp [hstart]), ih h standing level, htoken.text,
      sites]
    simp [Event.start]

/-- **The start tags of a document stand at its sites.** -/
theorem Document.texts_startTokens (h : w.Document) (d : Dialect) :
    (startTokens w.source).map (·.text) =
      (w.sites d .root 0).map fun p => (Event.start p.element.1 p.element.2).source := by
  obtain ⟨hspans, -⟩ := spans_scan h.lexed h.scannable
  rw [startTokens_eq, hspans.texts_starts d .root 0]
  simp

end Markup

end SkinMarkup
