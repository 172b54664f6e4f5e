import SkinMarkup.Document.Append
import SkinMarkup.Proofs.Tag.Located
import SkinMarkup.Proofs.Text.Search

/-!
# Lexical namespaces

The namespace of a tag is the one that the nearest tag around it declares for its
prefix. A tree is scoped if this holds of all its tags, given the namespaces that are
declared around it. Looking up all namespaces of a tree again makes it scoped in its
new surroundings (`scoped_rebind`), and a scoped tree with a scoped tag added
somewhere is scoped (`Scoped.modifyAt_push`).

Names that start with a colon are left out: their empty prefix is declared by two
attributes.
-/

namespace SkinMarkup

/-! ## Declarations as attributes -/

namespace Namespace

theorem declaredBy_eq_some_iff {name p : Text} (hp : p ≠ []) :
    declaredBy name = some p ↔ name = marker ++ p := by
  unfold declaredBy
  constructor
  · intro h
    split at h
    · cases h
      exact absurd rfl hp
    · exact after?_eq_some h
  · rintro rfl
    have hkeyword : ¬ marker ++ p = keyword := by
      simp [marker, keyword]
    rw [if_neg hkeyword]
    exact after?_append marker p

theorem uriOf?_append (p : Text) (inner outer : List Namespace) :
    uriOf? p (inner ++ outer) = (uriOf? p inner).or (uriOf? p outer) := by
  rw [uriOf?, uriOf?, uriOf?, List.find?_append]
  cases inner.find? fun binding => binding.nsPrefix = p <;> rfl

theorem resolve_cons (p : Text) (scope : List Namespace) (scopes : List (List Namespace)) :
    resolve p (scope :: scopes) = (uriOf? p scope).or (resolve p scopes) := by
  rw [resolve, List.findSome?_cons]
  cases uriOf? p scope <;> rfl

end Namespace

namespace Attribute

variable {p : Text} {attributes : List Attribute}

/-- A prefix is declared by the attribute of one name. -/
theorem uriOf?_declarations (hp : p ≠ []) (attributes : List Attribute) :
    Namespace.uriOf? p (declarations attributes) =
      (find? (Namespace.marker ++ p) attributes).map (·.value) := by
  induction attributes with
  | nil => rfl
  | cons a others ih =>
    by_cases hname : a.name = Namespace.marker ++ p
    · have hdeclared := (Namespace.declaredBy_eq_some_iff hp).mpr hname
      have hfirst : declarations (a :: others) = ⟨p, a.value⟩ :: declarations others := by
        simp [declarations, declaration?, hdeclared]
      rw [hfirst]
      simp [Namespace.uriOf?, find?, hname]
    · have hother : ∀ q, Namespace.declaredBy a.name = some q → q ≠ p := by
        rintro q hq rfl
        exact hname ((Namespace.declaredBy_eq_some_iff hp).mp hq)
      have hskip : find? (Namespace.marker ++ p) (a :: others) =
          find? (Namespace.marker ++ p) others := by
        simp [find?, hname]
      rw [hskip, ← ih]
      cases hdeclared : Namespace.declaredBy a.name with
      | none => simp [declarations, declaration?, hdeclared]
      | some q =>
        have hfirst : declarations (a :: others) = ⟨q, a.value⟩ :: declarations others := by
          simp [declarations, declaration?, hdeclared]
        rw [hfirst]
        simp [Namespace.uriOf?, hother q hdeclared]

theorem find?_reverse {name : Text} (h : (attributes.map (·.name)).Nodup) :
    find? name attributes.reverse = find? name attributes := by
  induction attributes with
  | nil => rfl
  | cons a others ih =>
    obtain ⟨hnew, hothers⟩ := List.nodup_cons.mp h
    rw [find?, List.reverse_cons, List.find?_append]
    change (find? name others.reverse).or _ = _
    rw [ih hothers]
    by_cases hname : a.name = name
    · -- No other attribute has the name.
      have hnone : find? name others = none := by
        refine List.find?_eq_none.mpr ?_
        intro b hb hsame
        refine hnew (List.mem_map.mpr ⟨b, hb, ?_⟩)
        exact (of_decide_eq_true hsame).trans hname.symm
      rw [hnone]
      simp [find?, hname]
    · have hskip : find? name (a :: others) = find? name others := by
        simp [find?, hname]
      rw [hskip]
      cases find? name others <;> simp [hname]

/-- Among attributes with different names the last declaration of a prefix is the
first. -/
theorem uriOf?_reverse_declarations (hp : p ≠ []) (h : (attributes.map (·.name)).Nodup) :
    Namespace.uriOf? p (declarations attributes).reverse =
      (find? (Namespace.marker ++ p) attributes).map (·.value) := by
  have hreverse : (declarations attributes).reverse = declarations attributes.reverse := by
    rw [declarations, declarations, List.filterMap_reverse]
  rw [hreverse, uriOf?_declarations hp, find?_reverse h]

end Attribute

/-! ## Scoped trees -/

namespace TagHead

/-- The namespace of a prefix for what is in a tag: the tag's own declaration comes
before those around it. -/
def nearest (outer : Text → Option Text) (h : TagHead) (p : Text) : Option Text :=
  (h.value? (Namespace.marker ++ p)).or (outer p)

/-- A tag whose name has the namespace that it should. A name without a prefix has
none. -/
structure Bound (outer : Text → Option Text) (h : TagHead) : Prop where
  unprefixed : prefixOf h.name = none → h.uri = []
  prefixed : ∀ p, prefixOf h.name = some p → p ≠ [] → h.uri = (h.nearest outer p).getD []

/-- A tag whose attributes have different names. -/
def Distinct (h : TagHead) : Prop :=
  (h.attributes.map (·.name)).Nodup

theorem uriOf?_declarations {p : Text} (hp : p ≠ []) (h : TagHead) :
    Namespace.uriOf? p h.declarations = h.value? (Namespace.marker ++ p) :=
  Attribute.uriOf?_declarations hp h.attributes

theorem Distinct.uriOf?_reverse {p : Text} (hp : p ≠ []) {h : TagHead} (hdistinct : h.Distinct) :
    Namespace.uriOf? p h.declarations.reverse = h.value? (Namespace.marker ++ p) :=
  Attribute.uriOf?_reverse_declarations hp hdistinct

end TagHead

namespace Tag

/-- A tag whose name and all names in it have the namespaces that the nearest tags
around them declare. Around the tag itself, `outer` gives them. -/
inductive Scoped : (outer : Text → Option Text) → Tag → Prop where
  | intro {outer : Text → Option Text} {tag : Tag} (distinct : tag.head.Distinct)
      (bound : tag.head.Bound outer)
      (below : ∀ child ∈ tag.tags, Scoped (tag.head.nearest outer) child) : Scoped outer tag

variable {outer outer' : Text → Option Text} {t new : Tag} {location : List Nat}

theorem Scoped.distinct (h : t.Scoped outer) : t.head.Distinct := by
  cases h with
  | intro distinct bound below => exact distinct

theorem Scoped.bound (h : t.Scoped outer) : t.head.Bound outer := by
  cases h with
  | intro distinct bound below => exact bound

theorem Scoped.inside (h : t.Scoped outer) :
    ∀ child ∈ t.tags, child.Scoped (t.head.nearest outer) := by
  cases h with
  | intro distinct bound below => exact below

/-- The empty prefix does not matter. -/
theorem Scoped.congr (h : t.Scoped outer) (heq : ∀ p, p ≠ [] → outer p = outer' p) :
    t.Scoped outer' := by
  induction h generalizing outer' with
  | @intro outer tag distinct bound below ih =>
    refine .intro distinct ⟨bound.unprefixed, ?_⟩ ?_
    · intro p hprefix hp
      rw [bound.prefixed p hprefix hp, TagHead.nearest, TagHead.nearest, heq p hp]
    · intro child hchild
      refine ih child hchild ?_
      intro p hp
      rw [TagHead.nearest, TagHead.nearest, heq p hp]

/-- The ends of a tag, its location and its leaf do not matter. -/
theorem Scoped.of_head {tag : Tag} (h : t.Scoped outer) (hname : tag.head.name = t.head.name)
    (huri : tag.head.uri = t.head.uri) (hattributes : tag.head.attributes = t.head.attributes)
    (hbelow : ∀ child ∈ tag.tags, child.Scoped (t.head.nearest outer)) : tag.Scoped outer := by
  have hnearest : tag.head.nearest outer = t.head.nearest outer := by
    funext p
    rw [TagHead.nearest, TagHead.nearest, TagHead.value?, TagHead.value?, hattributes]
  refine .intro ?_ ⟨?_, ?_⟩ ?_
  · rw [TagHead.Distinct, hattributes]
    exact h.distinct
  · rw [hname, huri]
    exact h.bound.unprefixed
  · rw [hname, huri, hnearest]
    exact h.bound.prefixed
  · rw [hnearest]
    exact hbelow

theorem Scoped.push (h : t.Scoped outer) (hnew : new.Scoped (t.head.nearest outer)) :
    (t.push new).Scoped outer := by
  refine h.of_head rfl rfl rfl ?_
  intro child hchild
  rcases List.mem_append.mp hchild with hold | hmem
  · exact h.inside child hold
  · rw [List.mem_singleton.mp hmem]
    exact hnew

theorem mem_relinkAll {parent : List Nat} {x : Tag} :
    ∀ {index : Nat} {ts : List Tag}, x ∈ relinkAll parent index ts →
      ∃ y ∈ ts, ∃ location, x = y.relink location
  | _, [], h => by
    rw [relinkAll] at h
    cases h
  | index, t :: ts, h => by
    rw [relinkAll] at h
    rcases List.mem_cons.mp h with rfl | h
    · exact ⟨t, List.mem_cons_self, _, rfl⟩
    · obtain ⟨y, hy, hx⟩ := mem_relinkAll h
      exact ⟨y, List.mem_cons_of_mem _ hy, hx⟩

theorem Scoped.relink (h : t.Scoped outer) (location : List Nat) :
    (t.relink location).Scoped outer := by
  induction h generalizing location with
  | @intro outer tag distinct bound below ih =>
    refine (Scoped.intro distinct bound below).of_head ?_ ?_ ?_ ?_
    · rw [relink_head]
    · rw [relink_head]
    · rw [relink_head]
    · intro child hchild
      rw [relink_tags] at hchild
      obtain ⟨old, hold, place, rfl⟩ := mem_relinkAll hchild
      exact ih old hold place

/-! ## Looking namespaces up again -/

/-- What a tag needs so that its namespace can be looked up again. -/
structure Rebindable (tag : Tag) : Prop where
  distinct : tag.head.Distinct
  unprefixed : prefixOf tag.head.name = none → tag.head.uri = []

theorem Scoped.rebindable (h : t.Scoped outer) : Everywhere Rebindable [t] := by
  induction h with
  | @intro outer tag distinct bound below ih =>
    refine everywhere_cons.mpr ⟨⟨⟨distinct, bound.unprefixed⟩, ?_⟩, everywhere_nil _⟩
    clear below
    generalize tag.tags = ts at ih
    induction ts with
    | nil => exact everywhere_nil _
    | cons child ts ihts =>
      have hfirst := everywhere_cons.mp (ih child List.mem_cons_self)
      exact everywhere_cons.mpr
        ⟨hfirst.1, ihts fun other hother => ih other (List.mem_cons_of_mem _ hother)⟩

theorem rebindAll_eq_map (scope : List Namespace) (ts : List Tag) :
    rebindAll scope ts = ts.map (rebind scope) := by
  induction ts with
  | nil => rw [rebindAll, List.map_nil]
  | cons t ts ih => rw [rebindAll, List.map_cons, ih]

/-- **Looking up the namespaces of a tree again makes it scoped** in the scope in
which they were looked up. -/
theorem scoped_rebind (scope : List Namespace) (h : Everywhere Rebindable [t]) :
    (t.rebind scope).Scoped fun p => Namespace.uriOf? p scope.reverse := by
  suffices ∀ ts : List Tag, Everywhere Rebindable ts → ∀ t ∈ ts, ∀ scope : List Namespace,
      (t.rebind scope).Scoped fun p => Namespace.uriOf? p scope.reverse from
    this [t] h t List.mem_cons_self scope
  intro ts
  induction ts using children_induction with
  | step ts ih =>
    intro hts t ht scope
    have hbindable : Rebindable t := hts t (mem_preorderAll_of_mem ht)
    have hbelow : Everywhere Rebindable t.tags :=
      fun x hx => hts x (mem_preorderAll_of_mem_tags ht hx)
    -- The last binding in the longer scope is the tag's own one, if it has one.
    have hlonger : ∀ p, p ≠ [] →
        Namespace.uriOf? p (scope ++ t.head.declarations).reverse =
          t.head.nearest (fun p => Namespace.uriOf? p scope.reverse) p := by
      intro p hp
      rw [List.reverse_append, Namespace.uriOf?_append, hbindable.distinct.uriOf?_reverse hp]
      rfl
    have hbelow' := ih t ht hbelow
    obtain ⟨hdistinct, hunprefixed⟩ := hbindable
    obtain ⟨head, leaf, tags⟩ := t
    rw [rebind]
    refine .intro hdistinct ⟨?_, ?_⟩ ?_
    · intro hprefix
      have hqualified : prefixOf head.name = none := hprefix
      simp only [hqualified]
      exact hunprefixed hprefix
    · intro p hprefix hp
      have hqualified : prefixOf head.name = some p := hprefix
      simp only [hqualified]
      rw [hlonger p hp]
      rfl
    · intro child hchild
      dsimp only at hchild
      rw [rebindAll_eq_map] at hchild
      obtain ⟨old, hold, rfl⟩ := List.mem_map.mp hchild
      exact (hbelow' old hold (scope ++ head.declarations)).congr hlonger

/-! ## Adding a tag -/

/-- **A scoped tree stays scoped with one more child somewhere in it**, if that is
scoped in the declarations on the way to it. -/
theorem Scoped.modifyAt_push (h : t.Scoped outer) {scope : List Namespace}
    (hscope : t.scopeAt? location = some scope)
    (hnew : new.Scoped fun p => (Namespace.uriOf? p scope.reverse).or (outer p)) :
    (t.modifyAt (·.push new) location).Scoped outer := by
  induction location generalizing t outer scope with
  | nil =>
    cases hscope
    refine h.push (hnew.congr ?_)
    intro p hp
    rw [h.distinct.uriOf?_reverse hp]
    rfl
  | cons index rest ih =>
    rw [scopeAt?] at hscope
    rw [modifyAt]
    cases hchild : t.child? index with
    | none =>
      rw [hchild] at hscope
      cases hscope
    | some child =>
      rw [hchild] at hscope
      obtain ⟨inner, hinner, rfl⟩ := Option.map_eq_some_iff.mp hscope
      have hmodified := ih (h.inside child (child?_mem hchild)) hinner (hnew.congr (by
        intro p hp
        rw [List.reverse_append, Namespace.uriOf?_append, h.distinct.uriOf?_reverse hp,
          Option.or_assoc]
        rfl))
      refine h.of_head rfl rfl rfl ?_
      intro other hother
      rcases List.mem_or_eq_of_mem_set hother with hold | rfl
      · exact h.inside other hold
      · exact hmodified

/-! ## What a scoped tree says -/

/-- The tags from a location below a tag up to the tag itself, nearest first. -/
def chain (t : Tag) : (location : List Nat) → List Tag
  | [] => [t]
  | index :: rest =>
    match t.child? index with
    | some child => child.chain rest ++ [t]
    | none => [t]

/-- The URI that the nearest tag of a chain declares for a prefix. -/
def declaredIn? (p : Text) (chain : List Tag) : Option Text :=
  chain.findSome? (·.head.value? (Namespace.marker ++ p))

/-- What is found in a scoped tree has the namespace that the nearest tag declares. -/
theorem Scoped.descendant? {x : Tag} (h : t.Scoped outer) (hx : t.descendant? location = some x) :
    (prefixOf x.name = none → x.head.uri = []) ∧
    ∀ p, prefixOf x.name = some p → p ≠ [] →
      x.head.uri = ((declaredIn? p (t.chain location)).or (outer p)).getD [] := by
  induction location generalizing t outer with
  | nil =>
    cases hx
    refine ⟨h.bound.unprefixed, ?_⟩
    intro p hprefix hp
    rw [h.bound.prefixed p hprefix hp, TagHead.nearest, chain, declaredIn?,
      List.findSome?_singleton]
  | cons index rest ih =>
    rw [Tag.descendant?] at hx
    cases hchild : t.child? index with
    | none =>
      rw [hchild] at hx
      cases hx
    | some child =>
      rw [hchild] at hx
      obtain ⟨hunprefixed, hprefixed⟩ := ih (h.inside child (child?_mem hchild)) hx
      refine ⟨hunprefixed, ?_⟩
      intro p hprefix hp
      rw [hprefixed p hprefix hp, chain, hchild, declaredIn?, declaredIn?, List.findSome?_append,
        List.findSome?_singleton, Option.or_assoc]
      rfl

end Tag

end SkinMarkup
