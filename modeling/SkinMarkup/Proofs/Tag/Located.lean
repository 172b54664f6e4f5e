import SkinMarkup.Proofs.Tag.Trail

/-!
# Locations

A tree is located if every tag in it has the location that leads to it. Writing
locations into a tree does this (`located_relink`), and adding a located tag at the
end of the children of some tag keeps it (`Located.modifyAt_push`). In a located tree
a tag is found again by its location, and so is the tag around it:
`Located.descendant?_location` and `Located.parent?_eq`.
-/

namespace SkinMarkup.Tag

/-! ## Children by their indices -/

theorem child?_mem {t child : Tag} {index : Nat} (h : t.child? index = some child) :
    child ∈ t.tags := by
  unfold child? at h
  split at h
  · cases h
  · exact List.mem_of_getElem? h

theorem exists_child?_of_mem {t child : Tag} (h : child ∈ t.tags) :
    ∃ index, t.child? index = some child := by
  obtain ⟨k, hk⟩ := List.mem_iff_getElem?.mp h
  refine ⟨t.leafCount + k, ?_⟩
  rw [child?, if_neg (by omega), Nat.add_sub_cancel_left]
  exact hk

/-- The children of a tag with one more child: those before, and the new one behind
them all. -/
theorem child?_push_cases {t child new : Tag} {index : Nat}
    (h : (t.push new).child? index = some child) :
    t.child? index = some child ∨ (index = t.childCount ∧ child = new) := by
  have hcount : (t.push new).leafCount = t.leafCount := rfl
  have htags : (t.push new).tags = t.tags ++ [new] := rfl
  unfold child? at h ⊢
  rw [hcount, htags] at h
  split at h
  · cases h
  · next hindex =>
    rw [if_neg hindex]
    rcases Nat.lt_or_ge (index - t.leafCount) t.tags.length with hlt | hge
    · rw [List.getElem?_append_left hlt] at h
      exact .inl h
    · rw [List.getElem?_append_right hge] at h
      obtain ⟨hlt, hnew⟩ := List.getElem?_eq_some_iff.mp h
      rw [List.length_singleton] at hlt
      refine .inr ⟨by rw [childCount]; omega, ?_⟩
      rw [← hnew, List.getElem_singleton]

theorem descendant?_concat (t : Tag) (location : List Nat) (index : Nat) :
    t.descendant? (location ++ [index]) = (t.descendant? location).bind (·.child? index) := by
  induction location generalizing t with
  | nil =>
    rw [List.nil_append, descendant?, descendant?, Option.bind_some]
    cases t.child? index <;> rfl
  | cons first rest ih =>
    rw [List.cons_append, descendant?, descendant?]
    cases t.child? first with
    | none => rfl
    | some child => exact ih child

/-- Every tag of a tree is at some location. -/
theorem exists_descendant?_of_mem_preorder {t x : Tag} (h : x ∈ t.preorder) :
    ∃ location, t.descendant? location = some x := by
  suffices ∀ ts : List Tag, x ∈ preorderAll ts → ∃ t ∈ ts, ∃ location,
      t.descendant? location = some x by
    obtain ⟨_, hmem, location, hx⟩ := this [t] (by simpa [preorderAll] using h)
    rw [List.mem_singleton.mp hmem] at hx
    exact ⟨location, hx⟩
  intro ts
  induction ts using children_induction with
  | step ts ih =>
    intro hx
    obtain ⟨t, ht, hx⟩ : ∃ t ∈ ts, x ∈ t.preorder := by
      clear ih
      induction ts with
      | nil =>
        rw [preorderAll] at hx
        cases hx
      | cons t ts ihts =>
        rw [preorderAll] at hx
        rcases List.mem_append.mp hx with hx | hx
        · exact ⟨t, List.mem_cons_self, hx⟩
        · obtain ⟨t', ht', hx⟩ := ihts hx
          exact ⟨t', List.mem_cons_of_mem _ ht', hx⟩
    rw [preorder_eq] at hx
    rcases List.mem_cons.mp hx with rfl | hx
    · exact ⟨x, ht, [], rfl⟩
    · obtain ⟨child, hchild, location, hfound⟩ := ih t ht hx
      obtain ⟨index, hindex⟩ := exists_child?_of_mem hchild
      refine ⟨t, ht, index :: location, ?_⟩
      rw [descendant?, hindex]
      exact hfound

/-- What is at a location is a tag of the tree. -/
theorem mem_preorder_of_descendant? {t x : Tag} {location : List Nat}
    (h : t.descendant? location = some x) : x ∈ t.preorder := by
  induction location generalizing t with
  | nil =>
    cases h
    exact mem_preorder_self x
  | cons index rest ih =>
    rw [descendant?] at h
    cases hchild : t.child? index with
    | none =>
      rw [hchild] at h
      cases h
    | some child =>
      rw [hchild] at h
      rw [preorder_eq]
      exact List.mem_cons_of_mem _ (mem_preorderAll_of_mem_preorder (child?_mem hchild) (ih h))

/-! ## Located trees -/

/-- A tag at a location, with the locations that follow from it in the tags below. -/
inductive Located : (location : List Nat) → Tag → Prop where
  | intro {tag : Tag} {location : List Nat} (here : tag.head.location = location)
      (below : ∀ index child, tag.child? index = some child → Located (location ++ [index]) child) :
      Located location tag

variable {t x new : Tag} {location place : List Nat}

theorem Located.location_eq (h : t.Located location) : t.head.location = location := by
  cases h with
  | intro here below => exact here

theorem Located.child (h : t.Located location) {index : Nat} {child : Tag}
    (hchild : t.child? index = some child) : child.Located (location ++ [index]) := by
  cases h with
  | intro here below => exact below index child hchild

theorem getElem?_relinkAll (parent : List Nat) (k : Nat) :
    ∀ (index : Nat) (ts : List Tag), (relinkAll parent index ts)[k]? =
      ts[k]?.map (relink (parent ++ [index + k])) := by
  intro index ts
  induction ts generalizing k index with
  | nil => simp [relinkAll]
  | cons t ts ih =>
    rw [relinkAll]
    cases k with
    | zero => simp
    | succ k => simpa [Nat.add_assoc, Nat.add_comm 1 k] using ih k (index + 1)

theorem child?_relink (t : Tag) (location : List Nat) (index : Nat) :
    (t.relink location).child? index = (t.child? index).map (relink (location ++ [index])) := by
  have hcount : (t.relink location).leafCount = t.leafCount := by
    cases t
    rw [relink]
    rfl
  unfold child?
  rw [hcount, relink_tags]
  split
  · rfl
  · next hindex =>
    have hsum : t.leafCount + (index - t.leafCount) = index := by omega
    rw [getElem?_relinkAll, hsum]

/-- **Writing locations into a tree makes it located.** -/
theorem located_relink (t : Tag) (location : List Nat) : (t.relink location).Located location := by
  suffices ∀ ts : List Tag, ∀ t ∈ ts, ∀ location, (t.relink location).Located location from
    this [t] t List.mem_cons_self location
  intro ts
  induction ts using children_induction with
  | step ts ih =>
    intro t ht location
    refine .intro (by rw [relink_head]) ?_
    intro index child hchild
    rw [child?_relink] at hchild
    obtain ⟨old, hold, rfl⟩ := Option.map_eq_some_iff.mp hchild
    exact ih t ht old (child?_mem hold) (location ++ [index])

/-- What is found below a located tag is located where it was looked for. -/
theorem Located.descendant? (h : t.Located location) (hx : t.descendant? place = some x) :
    x.Located (location ++ place) := by
  induction place generalizing t location with
  | nil =>
    cases hx
    rwa [List.append_nil]
  | cons index rest ih =>
    rw [Tag.descendant?] at hx
    cases hchild : t.child? index with
    | none =>
      rw [hchild] at hx
      cases hx
    | some child =>
      rw [hchild] at hx
      have := ih (h.child hchild) hx
      rwa [List.append_assoc] at this

theorem Located.push (h : t.Located location) (hnew : new.Located (location ++ [t.childCount])) :
    (t.push new).Located location := by
  refine .intro h.location_eq ?_
  intro index child hchild
  rcases child?_push_cases hchild with hold | ⟨rfl, rfl⟩
  · exact h.child hold
  · exact hnew

theorem child?_set_cases {child : Tag} {index place : Nat}
    (h : Tag.child? { t with tags := t.tags.set (place - t.leafCount) new } index = some child) :
    t.child? index = some child ∨ (index - t.leafCount = place - t.leafCount ∧
      ¬ index < t.leafCount ∧ child = new) := by
  have hcount : leafCount { t with tags := t.tags.set (place - t.leafCount) new } = t.leafCount := rfl
  unfold child? at h ⊢
  rw [hcount] at h
  split at h
  · cases h
  · next hindex =>
    rw [if_neg hindex]
    rw [List.getElem?_set] at h
    split at h
    · next heq =>
      split at h
      · cases h
        exact .inr ⟨heq.symm, hindex, rfl⟩
      · cases h
    · exact .inl h

/-- **A located tree stays located with one more child somewhere in it.** -/
theorem Located.modifyAt_push (h : t.Located location) {parent : Tag}
    (hparent : t.descendant? place = some parent)
    (hnew : new.Located (location ++ place ++ [parent.childCount])) :
    (t.modifyAt (·.push new) place).Located location := by
  induction place generalizing t location with
  | nil =>
    cases hparent
    rw [List.append_nil] at hnew
    exact h.push hnew
  | cons index rest ih =>
    rw [Tag.descendant?] at hparent
    rw [modifyAt]
    cases hchild : t.child? index with
    | none =>
      rw [hchild] at hparent
      cases hparent
    | some child =>
      rw [hchild] at hparent
      have hbelow : ¬ index < t.leafCount := by
        intro hlt
        rw [child?, if_pos hlt] at hchild
        cases hchild
      have hmodified := ih (h.child hchild) hparent (by simpa using hnew)
      refine .intro h.location_eq ?_
      intro index' child' hchild'
      rcases child?_set_cases hchild' with hold | ⟨heq, hindex, rfl⟩
      · exact h.child hold
      · have : index' = index := by omega
        rwa [this]

/-! ## What a located tree finds -/

/-- A tag of a located tree is found at its own location. -/
theorem Located.descendant?_location (h : t.Located []) (hx : x ∈ t.preorder) :
    t.descendant? x.head.location = some x := by
  obtain ⟨place, hplace⟩ := exists_descendant?_of_mem_preorder hx
  rw [(h.descendant? hplace).location_eq]
  exact hplace

/-- **The tag around a tag is found**, unless the tag is the root. -/
theorem Located.parent?_eq (h : t.Located []) (hx : x ∈ t.preorder) :
    (x.head.location = [] ∧ x = t ∧ t.parent? x = none) ∨
    ∃ parent index, x.head.location = parent.head.location ++ [index] ∧
      t.parent? x = some parent ∧ parent.child? index = some x := by
  have hfound := h.descendant?_location hx
  rcases List.eq_nil_or_concat x.head.location with hnil | ⟨front, index, hconcat⟩
  · left
    rw [hnil] at hfound
    cases hfound
    refine ⟨hnil, rfl, ?_⟩
    rw [parent?, if_pos hnil]
  · right
    rw [List.concat_eq_append] at hconcat
    rw [hconcat, descendant?_concat] at hfound
    obtain ⟨parent, hparent, hchild⟩ := Option.bind_eq_some_iff.mp hfound
    refine ⟨parent, index, ?_, ?_, hchild⟩
    · rw [(h.descendant? hparent).location_eq, List.nil_append, hconcat]
    · rw [parent?, if_neg (by simp [hconcat]), hconcat, List.dropLast_concat]
      exact hparent

end SkinMarkup.Tag
