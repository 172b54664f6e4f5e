import Mathlib.Data.List.Induction
import SkinMarkup.Proofs.Path.Counting
import SkinMarkup.Proofs.Tag.Trail

/-!
# Following a trail

The numbers of shown tags that a trail passes over are a path.

- `seekRange_trail`: looking for the path of a trail finds its last tag.
- `pathOf_of_stands`: going back from either tag of the last element gives the
  path, unless a tag on the trail is hidden.
-/

namespace SkinMarkup

namespace Trail

/-- The path of a trail: how many of the tags that are passed over are shown. -/
def path (shown : Tag → Bool) (trail : Trail) : List Nat :=
  trail.map fun step => step.1.countP shown

@[simp]
theorem path_cons (shown : Tag → Bool) (before : List Tag) (tag : Tag) (trail : Trail) :
    path shown ((before, tag) :: trail) = before.countP shown :: path shown trail := rfl

@[simp]
theorem path_append (shown : Tag → Bool) (trail trail' : Trail) :
    path shown (trail ++ trail') = path shown trail ++ path shown trail' :=
  List.map_append

@[simp]
theorem path_nil (shown : Tag → Bool) : path shown [] = [] := rfl

/-- Whether all tags that a trail meets are shown. -/
def allShown (visible : Token → Bool) (t : Text) (trail : Trail) : Bool :=
  trail.all fun step => step.2.shown visible t

variable {visible : Token → Bool} {t : Text} {ts : List Tag} {trail : Trail}

theorem allShown_iff :
    allShown visible t trail = true ↔ ∀ x ∈ line trail, x.shown visible t = true := by
  rw [allShown, List.all_eq_true, line]
  constructor
  · intro h x hx
    obtain ⟨step, hstep, rfl⟩ := List.mem_map.mp hx
    exact h step hstep
  · intro h step hstep
    exact h step.2 (List.mem_map_of_mem hstep)

/-! ## Forwards -/

/-- **Looking for the path of a trail finds its last tag,** if all its tags are
shown. -/
theorem seekRange_trail (hleafy : Tag.Leafy ts) {before : List Tag} {tag : Tag}
    (h : Through ts (trail ++ [(before, tag)]))
    (hshown : allShown visible t (trail ++ [(before, tag)]) = true) (more : List Token) :
    seekRange visible
      ((path (Tag.shown visible t) (trail ++ [(before, tag)])).map fun n : Nat => (n : Int)) 0 none
      (Tag.tokens t ts ++ more) = tag.tokenRange t := by
  -- The induction is on the trail: the tags passed over use up the first index,
  -- and the tag that is met starts the search for the others.
  induction trail generalizing ts more with
  | nil =>
    obtain ⟨⟨after, rfl⟩, -⟩ := h
    have hvisible : visible (tag.startToken t) = true := by
      simpa [allShown, Tag.shown] using hshown
    have hmet : metIndex visible (tag.startToken t) 0 0 = 0 := metIndex_of_visible hvisible 0 0
    simp only [List.nil_append, path_cons, List.map_cons]
    rw [Tag.tokens_append, List.append_assoc, seekRange_siblings before (Int.le_refl _), Int.sub_self]
    cases hself : tag.head.selfClosing with
    | true =>
      rw [Tag.tokens_cons_of_selfClosing hself, List.cons_append, Tag.tokenRange, if_pos hself]
      exact seekRange_selfClosing_found (Tag.startToken_kind_of_selfClosing hself) hmet
    | false =>
      rw [Tag.tokens_cons_of_not_selfClosing hself, List.cons_append, Tag.tokenRange, hself,
        List.append_assoc, List.cons_append]
      refine (seekRange_opening_found (Tag.startToken_kind_of_not_selfClosing hself) hmet).trans ?_
      exact seekRange_found tag _
  | cons step trail ih =>
    obtain ⟨passed, met⟩ := step
    have hne : trail ++ [(before, tag)] ≠ [] := List.append_ne_nil_of_right_ne_nil _ (by simp)
    have hself := h.not_selfClosing hleafy hne
    have hbelow := h.leafy hleafy
    obtain ⟨⟨after, rfl⟩, htrail⟩ := h
    obtain ⟨hvisible, hshown⟩ : visible (met.startToken t) = true ∧
        allShown visible t (trail ++ [(before, tag)]) = true := by
      simpa [allShown, Tag.shown, and_assoc] using hshown
    have hmet : metIndex visible (met.startToken t) 0 0 = 0 := metIndex_of_visible hvisible 0 0
    simp only [List.cons_append, path_cons, List.map_cons]
    rw [Tag.tokens_append, List.append_assoc, seekRange_siblings passed (Int.le_refl _), Int.sub_self,
      Tag.tokens_cons_of_not_selfClosing hself, List.cons_append, List.append_assoc,
      seekRange_opening_enter (Tag.startToken_kind_of_not_selfClosing hself) hmet (by simp)]
    exact ih hbelow htrail hshown _

/-! ## Backwards -/

/-- **Going back along a trail gives its path,** provided that all its tags are
shown. -/
theorem countBack_lead {index : Int} {rest : List Int}
    (hself : ∀ step ∈ trail, step.2.head.selfClosing = false) :
    countBack visible index rest 0 (lead t trail).reverse =
      if allShown visible t trail then
        some ((path (Tag.shown visible t) trail).map (fun n : Nat => (n : Int)) ++ index :: rest)
      else none := by
  -- Going back starts at the end of the trail.
  induction trail using List.reverseRecOn generalizing index rest with
  | nil => simp [lead, allShown, countBack]
  | append_singleton trail step ih =>
    obtain ⟨before, tag⟩ := step
    have hkind : (tag.startToken t).kind = .opening :=
      Tag.startToken_kind_of_not_selfClosing (hself (before, tag) (by simp))
    have hinit : ∀ step ∈ trail, step.2.head.selfClosing = false :=
      fun step hstep => hself step (List.mem_append_left _ hstep)
    have hall : allShown visible t (trail ++ [(before, tag)]) =
        (allShown visible t trail && tag.shown visible t) := by
      simp [allShown]
    rw [lead_append_singleton, List.reverse_append, List.reverse_append, List.reverse_singleton,
      List.singleton_append, countBack, hall]
    cases hshown : tag.shown visible t with
    | true =>
      have hvisible : visible (tag.startToken t) = true := hshown
      simp only [hkind, hvisible, if_true]
      rw [countBack_siblings, ih hinit]
      simp
    | false =>
      have hvisible : visible (tag.startToken t) = false := hshown
      simp [hkind, hvisible]

section

variable {before : List Tag} {tag : Tag}

theorem countBack_tokensBefore (hself : ∀ step ∈ trail, step.2.head.selfClosing = false) :
    countBack visible 0 [] 0 (tokensBefore t trail before).reverse =
      if allShown visible t trail then
        some ((path (Tag.shown visible t) (trail ++ [(before, tag)])).map fun n : Nat => (n : Int))
      else none := by
  rw [tokensBefore, List.reverse_append, countBack_siblings, countBack_lead hself]
  simp

theorem toNat_counts (counts : List Nat) :
    (if (counts.map fun n : Nat => (n : Int)).any (· < 0) then []
      else (counts.map fun n : Nat => (n : Int)).map Int.toNat) = counts := by
  have hany : (counts.map fun n : Nat => (n : Int)).any (· < 0) = false := by
    rw [List.any_map, List.any_eq_false]
    intro n _
    simp
  rw [hany, List.map_map]
  exact List.map_id counts

theorem pathOf_of_hidden {token start : Token} {tokens : List Token}
    (hselected : selectedStart? (token :: tokens) = some start) (hhidden : visible start = false) :
    pathOf visible (token :: tokens) = [] := by
  rw [pathOf, hselected]
  simp [hhidden]

/-- A path is what has been counted back from a visible start tag. -/
theorem pathOf_of_visible {token start : Token} {tokens : List Token} {shown : Bool}
    {counts : List Nat} (hselected : selectedStart? (token :: tokens) = some start)
    (hvisible : visible start = true)
    (hcounted : (if token.kind = .opening then countBack visible 0 [] 0 tokens
      else countBack visible (-1) [] 0 (token :: tokens)) =
        if shown then some (counts.map fun n : Nat => (n : Int)) else none) :
    pathOf visible (token :: tokens) = if shown then counts else [] := by
  rw [pathOf, hselected]
  simp only [hvisible, if_true, hcounted]
  cases shown with
  | false => rfl
  | true => exact toNat_counts counts

/-- The path at the end of a trail, or none if a tag on it is hidden. -/
def pathIfShown (visible : Token → Bool) (t : Text) (trail : Trail) : List Nat :=
  if allShown visible t trail then path (Tag.shown visible t) trail else []

theorem pathIfShown_of_hidden (hshown : tag.shown visible t = false) :
    pathIfShown visible t (trail ++ [(before, tag)]) = [] := by
  simp [pathIfShown, allShown, hshown]

theorem pathIfShown_of_shown (hshown : tag.shown visible t = true) :
    pathIfShown visible t (trail ++ [(before, tag)]) =
      if allShown visible t trail then path (Tag.shown visible t) (trail ++ [(before, tag)])
      else [] := by
  have hall : allShown visible t (trail ++ [(before, tag)]) = allShown visible t trail := by
    simp [allShown, hshown]
  rw [pathIfShown, hall]

theorem pathOf_start (hself : ∀ step ∈ trail, step.2.head.selfClosing = false) :
    pathOf visible (tag.startToken t :: (tokensBefore t trail before).reverse) =
      pathIfShown visible t (trail ++ [(before, tag)]) := by
  have hselected : selectedStart? (tag.startToken t :: (tokensBefore t trail before).reverse) =
      some (tag.startToken t) := by
    rw [selectedStart?, if_neg]
    cases htag : tag.head.selfClosing with
    | true => simp [Tag.startToken_kind_of_selfClosing htag]
    | false => simp [Tag.startToken_kind_of_not_selfClosing htag]
  cases hshown : tag.shown visible t with
  | false => rw [pathIfShown_of_hidden hshown, pathOf_of_hidden hselected hshown]
  | true =>
    have hvisible : visible (tag.startToken t) = true := hshown
    rw [pathIfShown_of_shown hshown]
    apply pathOf_of_visible hselected hvisible
    rw [← countBack_tokensBefore hself]
    cases htag : tag.head.selfClosing with
    | true =>
      have hkind := Tag.startToken_kind_of_selfClosing (t := t) htag
      rw [hkind, if_neg (by decide), countBack, hkind]
      simp [hvisible]
    | false => rw [Tag.startToken_kind_of_not_selfClosing htag, if_pos rfl]

theorem pathOf_end (hself : ∀ step ∈ trail, step.2.head.selfClosing = false)
    (htag : tag.head.selfClosing = false) :
    pathOf visible (tag.endToken t :: ((Tag.tokens t tag.tags).reverse ++
        tag.startToken t :: (tokensBefore t trail before).reverse)) =
      pathIfShown visible t (trail ++ [(before, tag)]) := by
  have hkind := Tag.startToken_kind_of_not_selfClosing (t := t) htag
  have hselected : selectedStart? (tag.endToken t :: ((Tag.tokens t tag.tags).reverse ++
      tag.startToken t :: (tokensBefore t trail before).reverse)) = some (tag.startToken t) := by
    rw [selectedStart?, Tag.endToken_kind, if_pos rfl, matchingStart?]
    simp only [Tag.endToken_kind]
    rw [matchingStart?_siblings tag.tags (Nat.le_refl 1), matchingStart?, hkind]
    rfl
  cases hshown : tag.shown visible t with
  | false => rw [pathIfShown_of_hidden hshown, pathOf_of_hidden hselected hshown]
  | true =>
    have hvisible : visible (tag.startToken t) = true := hshown
    rw [pathIfShown_of_shown hshown]
    apply pathOf_of_visible hselected hvisible
    rw [← countBack_tokensBefore hself, Tag.endToken_kind, if_neg (by decide), countBack]
    simp only [Tag.endToken_kind]
    -- The end tag starts the count at minus one, its own start tag takes that back.
    rw [countBack_below tag.tags (by omega), countBack, hkind]
    simp [hvisible]

/-- **Going back from a token gives the path of its element,** or none if a tag
on the trail is hidden. -/
theorem pathOf_of_stands {earlier : List Token} {token : Token} (hleafy : Tag.Leafy ts)
    (h : Through ts (trail ++ [(before, tag)]))
    (hstands : Stands t trail before tag earlier token) :
    pathOf visible (token :: earlier.reverse) = pathIfShown visible t (trail ++ [(before, tag)]) := by
  have hself := h.not_selfClosing_of_mem hleafy
  cases hstands with
  | start => exact pathOf_start hself
  | stop htag =>
    rw [← pathOf_end hself htag]
    simp

end

theorem pathIfShown_ne_nil_iff (hne : trail ≠ []) :
    pathIfShown visible t trail ≠ [] ↔ ∀ x ∈ line trail, x.shown visible t = true := by
  rw [← allShown_iff, pathIfShown]
  cases allShown visible t trail with
  | false => simp
  | true => simpa [path] using hne

end Trail

end SkinMarkup
