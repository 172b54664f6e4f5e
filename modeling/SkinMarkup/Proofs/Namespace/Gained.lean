import SkinMarkup.Proofs.Markup.Printing
import SkinMarkup.Proofs.Tag.Scoped

/-!
# What a new binding reaches

A binding around a tree reaches the names of its prefix that no tag around them binds.
In the tree that gains a binding those names have its URI and all others what they had
(`Tag.gain`). If the prefix has no binding around a tree yet, one more gives the tree that
(`Tag.bindAll_of_new`).
-/

namespace SkinMarkup

namespace Namespace

variable {n : Namespace} {before after : List Namespace}

/-- A binding of a prefix that has none binds that prefix and no other. -/
theorem uriOf?_insert (hnew : uriOf? n.nsPrefix (before ++ after) = none) (p : Text) :
    uriOf? p (before ++ n :: after) =
      if p = n.nsPrefix then some n.uri else uriOf? p (before ++ after) := by
  have hfirst : uriOf? p (n :: after) = if p = n.nsPrefix then some n.uri else uriOf? p after := by
    rw [uriOf?, List.find?_cons]
    by_cases h : n.nsPrefix = p
    · simp [h]
    · simp [h, Ne.symm h, uriOf?]
  rw [uriOf?_append] at hnew
  rw [uriOf?_append, uriOf?_append, hfirst]
  split
  · next h =>
    subst h
    rw [(Option.or_eq_none_iff.mp hnew).1, Option.none_or]
  · rfl

end Namespace

namespace Tag

variable {n : Namespace} {scopes scopes' : List (List Namespace)}

mutual

/-- A tree around which a prefix is bound that was not. The binding does not reach into a
tag that has its own. -/
def gain (n : Namespace) : Tag → Tag
  | ⟨head, leaf, tags⟩ =>
    if (Namespace.uriOf? n.nsPrefix head.declarations).isSome then ⟨head, leaf, tags⟩
    else ⟨{ head with uri := if prefixOf head.name = some n.nsPrefix then n.uri else head.uri }, leaf,
      gainAll n tags⟩

/-- Trees around which a prefix is bound that was not. -/
def gainAll (n : Namespace) : List Tag → List Tag
  | [] => []
  | t :: ts => gain n t :: gainAll n ts

end

theorem gain_of_declared {t : Tag} (h : (Namespace.uriOf? n.nsPrefix t.head.declarations).isSome = true) :
    t.gain n = t := by
  cases t
  rw [gain, if_pos h]

theorem gain_of_undeclared {t : Tag} (h : Namespace.uriOf? n.nsPrefix t.head.declarations = none) :
    t.gain n =
      ⟨{ t.head with uri := if prefixOf t.head.name = some n.nsPrefix then n.uri else t.head.uri },
        t.leaf, gainAll n t.tags⟩ := by
  cases t
  rw [gain, if_neg (by rw [h]; exact Bool.false_ne_true)]

/-- Offsets have no part in what is gained. -/
theorem gainAll_map_bare (n : Namespace) (ts : List Tag) :
    gainAll n (ts.map bare) = (gainAll n ts).map bare := by
  induction ts using trees_induction with
  | nil => rfl
  | cons tag ts ihtags ihts =>
    rw [List.map_cons, gainAll, gainAll, ihts, List.map_cons]
    congr 1
    cases h : Namespace.uriOf? n.nsPrefix tag.head.declarations with
    | some uri =>
      have hsome : (Namespace.uriOf? n.nsPrefix tag.head.declarations).isSome = true := by rw [h]; rfl
      rw [gain_of_declared hsome, gain_of_declared]
      rwa [bare_head, TagHead.declarations_bare]
    | none =>
      rw [gain_of_undeclared h, gain_of_undeclared (by rwa [bare_head, TagHead.declarations_bare]),
        bare_eq tag, ihtags, bare_eq]
      rfl

/-- Where the scopes give the same, so do the names. -/
theorem bindAll_congr (h : ∀ p, Namespace.resolve p scopes = Namespace.resolve p scopes')
    (ts : List Tag) : bindAll scopes ts = bindAll scopes' ts := by
  induction ts using trees_induction generalizing scopes scopes' with
  | nil => rfl
  | cons tag ts ihtags ihts =>
    have hinner : ∀ p, Namespace.resolve p (tag.head.declarations :: scopes) =
        Namespace.resolve p (tag.head.declarations :: scopes') := fun p => by
      rw [Namespace.resolve_cons, Namespace.resolve_cons, h]
    rw [bindAll, bindAll, ihts h, bind_eq, bind_eq, ihtags hinner]
    congr 3
    simp only [TagHead.lookup, hinner]

/-- **A tree gains one more binding around it,** where its prefix had none. -/
theorem bindAll_of_new (hnone : Namespace.resolve n.nsPrefix scopes = none)
    (hnew : ∀ p, Namespace.resolve p scopes' =
      if p = n.nsPrefix then some n.uri else Namespace.resolve p scopes) (ts : List Tag) :
    bindAll scopes' ts = gainAll n (bindAll scopes ts) := by
  induction ts using trees_induction generalizing scopes scopes' with
  | nil => rfl
  | cons tag ts ihtags ihts =>
    rw [bindAll, bindAll, gainAll, ihts hnone hnew]
    congr 1
    have hhead : (tag.bind scopes).head.declarations = tag.head.declarations := by
      rw [bind_eq]
      exact tag.head.declarations_bare
    cases hown : Namespace.uriOf? n.nsPrefix tag.head.declarations with
    | some uri =>
      -- The tag's own declaration comes first.
      have hinner : ∀ p, Namespace.resolve p (tag.head.declarations :: scopes') =
          Namespace.resolve p (tag.head.declarations :: scopes) := fun p => by
        rw [Namespace.resolve_cons, Namespace.resolve_cons, hnew]
        split
        · next h => rw [h, hown, Option.some_or, Option.some_or]
        · rfl
      rw [gain_of_declared (by rw [hhead, hown]; rfl), bind_eq, bind_eq, bindAll_congr hinner]
      congr 2
      simp only [TagHead.lookup, hinner]
    | none =>
      have hnone' : Namespace.resolve n.nsPrefix (tag.head.declarations :: scopes) = none := by
        rw [Namespace.resolve_cons, hown, hnone, Option.none_or]
      have hnew' : ∀ p, Namespace.resolve p (tag.head.declarations :: scopes') =
          if p = n.nsPrefix then some n.uri
          else Namespace.resolve p (tag.head.declarations :: scopes) := fun p => by
        rw [Namespace.resolve_cons, Namespace.resolve_cons, hnew]
        split
        · next h => rw [h, hown, Option.none_or]
        · rfl
      rw [gain_of_undeclared (by rw [hhead, hown]), bind_eq, bind_eq, ihtags hnone' hnew']
      congr 2
      simp only [TagHead.lookup]
      cases hqualified : prefixOf tag.head.name with
      | none => simp [hqualified]
      | some p =>
        by_cases h : p = n.nsPrefix <;> simp [hqualified, hnew', h]

end Tag

end SkinMarkup
