import SkinMarkup.Proofs.State.ShorterLists
import SkinMarkup.Proofs.State.Successors

/-!
# What a start tag says without a state

A start tag from which a state was removed can be edited again, and so can a root
whose list of states is shorter (`Ready.successor_removed`,
`Ready.successor_shorten`). For another state its lists say what they said:
`Sheds.visibleIn_eq`. An element that goes with a state shows in no other one:
`visibleIn_eq_false_of_isLeftOut`.
-/

namespace SkinMarkup

/-! ## Values of attributes -/

theorem valueIn?_of_mem {entries : List (Text × Text)} (hnodup : (entries.map Prod.fst).Nodup)
    {e : Text × Text} (he : e ∈ entries) : valueIn? e.1 entries = some e.2 := by
  induction entries with
  | nil => cases he
  | cons x entries ih =>
    rw [List.map_cons, List.nodup_cons] at hnodup
    rcases List.mem_cons.mp he with rfl | he
    · simp [valueIn?]
    · have hne : x.1 ≠ e.1 := fun heq => hnodup.1 (heq ▸ List.mem_map_of_mem he)
      rw [valueIn?, List.find?_cons_of_neg (by simpa using hne)]
      exact ih hnodup.2 he

/-- **The value that an attribute has after an edit,** if no two attributes have
the same name. -/
theorem valueIn?_filterMap {f : ValueEdit} {entries : List (Text × Text)}
    (hnodup : (entries.map Prod.fst).Nodup) (name : Text) :
    valueIn? name (entries.filterMap f.entry) = (valueIn? name entries).bind (f name) := by
  induction entries with
  | nil => rfl
  | cons e entries ih =>
    obtain ⟨other, value⟩ := e
    rw [List.map_cons, List.nodup_cons] at hnodup
    obtain ⟨hnot, hnodup⟩ := hnodup
    have ih := ih hnodup
    by_cases hname : other = name
    · subst hname
      have hnone : valueIn? other entries = none := by
        rw [valueIn?, Option.map_eq_none_iff, List.find?_eq_none]
        intro e he heq
        exact hnot (List.mem_map.mpr ⟨e, he, by simpa using heq⟩)
      have hhead : valueIn? other ((other, value) :: entries) = some value := by
        simp [valueIn?]
      rw [hhead, Option.bind_some]
      cases hf : f other value with
      | none =>
        rw [List.filterMap_cons_none (by rw [ValueEdit.entry, hf]; rfl), ih, hnone]
        rfl
      | some value' =>
        rw [List.filterMap_cons_some (by rw [ValueEdit.entry, hf]; rfl)]
        simp [valueIn?]
    · have hskip : ∀ value', valueIn? name ((other, value') :: entries) = valueIn? name entries := by
        intro value'
        rw [valueIn?, List.find?_cons_of_neg (by simpa using hname), valueIn?]
      rw [hskip]
      cases hf : f other value with
      | none => rw [List.filterMap_cons_none (by rw [ValueEdit.entry, hf]; rfl), ih]
      | some value' =>
        rw [List.filterMap_cons_some (by rw [ValueEdit.entry, hf]; rfl), valueIn?,
          List.find?_cons_of_neg (by simpa using hname), ← valueIn?, ih]

/-- An edit of values gives no two attributes the same name. -/
theorem ValueEdit.nodup_filterMap {f : ValueEdit} {entries : List (Text × Text)}
    (hnodup : (entries.map Prod.fst).Nodup) : ((entries.filterMap f.entry).map Prod.fst).Nodup := by
  refine hnodup.sublist ?_
  clear hnodup
  induction entries with
  | nil => exact .slnil
  | cons e entries ih =>
    cases hf : f e.1 e.2 with
    | none =>
      rw [List.filterMap_cons_none (by rw [ValueEdit.entry, hf]; rfl)]
      exact ih.cons _
    | some value =>
      rw [List.filterMap_cons_some (by rw [ValueEdit.entry, hf]; rfl)]
      exact ih.cons_cons _

theorem ValueEdit.exists_of_mem_filterMap {f : ValueEdit} {entries : List (Text × Text)}
    {e : Text × Text} (h : e ∈ entries.filterMap f.entry) :
    ∃ value, (e.1, value) ∈ entries ∧ f e.1 value = some e.2 := by
  obtain ⟨x, hx, heq⟩ := List.mem_filterMap.mp h
  obtain ⟨value, hvalue, rfl⟩ := Option.map_eq_some_iff.mp heq
  exact ⟨x.2, hx, hvalue⟩

/-! ## Start tags -/

namespace StartTag

variable {t : StartTag} {name state : Text} {entries : List (Text × Text)}

/-- **A start tag without a state can be edited again.** -/
theorem Ready.successor_removed (h : t.Ready) (state : Text) : Successor t (t.removed state) := by
  refine h.successor_rewrite fun p hp value hvalue => ?_
  rcases remove_eq_some hvalue with heq | ⟨hlist, rfl⟩
  · exact Or.inl heq
  · have hquiet := (h.piece hp).quiet ((h.piece hp).list hlist)
    exact Or.inr (Quiet.render (forall_mem_erase fun _ => hquiet.of_part))

/-- **So can a root with a shorter list of states.** -/
theorem Ready.successor_shorten (h : t.Ready) (hdeclaring : t.Declaring) (state : Text) :
    Successor t (t.rewrite (.shorten Word.states state)) := by
  refine h.successor_rewrite fun p hp value hvalue => ?_
  rcases shorten_eq_some hvalue with heq | ⟨hname, rfl⟩
  · exact Or.inl heq
  · have hquiet := (h.piece hp).quiet (hdeclaring p hp hname)
    exact Or.inr (Quiet.render (forall_mem_erase fun _ => hquiet.of_part))

/-- What a start tag without a state says. -/
theorem Ready.elementOf_removed (h : t.Ready) (state : Text) :
    elementOf (t.removed state).content =
      ((elementOf t.content).1, (elementOf t.content).2.filterMap (ValueEdit.remove state).entry) := by
  obtain ⟨entries, hentries⟩ := Option.isSome_iff_exists.mp h.readable
  rw [Markup.elementOf_content h.listed.tidy hentries,
    Markup.elementOf_content (h.listed.tidy_removed state)
      (h.listed.entriesOf?_removed hentries h.plain state)]
  rfl

/-- What a root with a shorter list of states says. -/
theorem Ready.elementOf_shorten (h : t.Ready) (hdeclaring : t.Declaring) (state : Text) :
    elementOf (t.rewrite (.shorten Word.states state)).content =
      ((elementOf t.content).1,
        (elementOf t.content).2.filterMap (ValueEdit.shorten Word.states state).entry) := by
  obtain ⟨entries, hentries⟩ := Option.isSome_iff_exists.mp h.readable
  have htidy := (h.successor_shorten hdeclaring state).ready.listed.tidy
  rw [Markup.elementOf_content h.listed.tidy hentries, Markup.elementOf_content htidy
    (h.listed.tidy.regular.entriesOf?_rewrite htidy.regular hentries fun p hp => ?_)]
  · rfl
  · by_cases hname : p.name = Word.states
    · have hquiet := (h.piece hp).quiet (hdeclaring p hp hname)
      refine ValueEdit.reads_of_not_mem hquiet.plain fun value' hvalue' => ?_
      rcases shorten_eq_some hvalue' with rfl | ⟨-, rfl⟩
      · exact hquiet.plain
      · exact (Quiet.render (forall_mem_erase fun _ => hquiet.of_part)).plain
    · exact ValueEdit.reads_of_eq fun value => by simp [ValueEdit.shorten, hname]

end StartTag

/-! ## Visibility -/

section

variable {d : Dialect} {state other : Text} {allStates : List Text} {m m' : Membership}

/-- The lists of an element from which a state was removed. -/
structure Sheds (state : Text) (m m' : Membership) : Prop where
  localName : m'.localName = m.localName
  includeIn : m'.includeIn = m.includeIn.bind (ValueEdit.remove state Word.includeIn)
  excludeFrom : m'.excludeFrom = m.excludeFrom.bind (ValueEdit.remove state Word.excludeFrom)

theorem remove_list {name : Text} (hname : Word.isStateList name = true) (state value : Text) :
    ValueEdit.remove state name value =
      if state ∈ StateList.entries value then StateList.without state value else some value := by
  simp [ValueEdit.remove, stemFor?_of_isStateList hname, hname]

/-- A list that is left says about another state what it said. -/
theorem contains_of_remove {name value value' : Text} (hother : other ≠ state)
    (h : ValueEdit.remove state name value = some value') :
    (StateList.entries value').contains other = (StateList.entries value).contains other := by
  rcases StartTag.remove_eq_some h with rfl | ⟨-, rfl⟩
  · rfl
  · rw [StateList.entries_render fun e he => (StateList.mem_entries (List.mem_of_mem_erase he)).1,
      List.contains_eq_mem, List.contains_eq_mem, decide_eq_decide, List.mem_erase_of_ne hother]

/-- A list that goes has the state and no other one. -/
theorem entries_of_remove_eq_none {name value : Text} (hname : Word.isStateList name = true)
    (h : ValueEdit.remove state name value = none) : StateList.entries value = [state] := by
  rw [remove_list hname] at h
  split at h
  · next hmem =>
    rw [StateList.without_eq_none_iff] at h
    obtain ⟨l, r, hl, heq, herase⟩ := List.exists_erase_eq hmem
    rw [herase, List.append_eq_nil_iff] at h
    rw [heq, h.1, h.2, List.nil_append]
  · cases h

/-- **An element that stays shows in another state as before.** -/
theorem Sheds.visibleIn_eq (h : Sheds state m m') (hother : other ≠ state)
    (hstay : isLeftOut state allStates m.includeIn m.excludeFrom = false) :
    m'.visibleIn d other = m.visibleIn d other := by
  obtain ⟨name, includeIn, excludeFrom⟩ := m
  rw [isLeftOut, Bool.or_eq_false_iff] at hstay
  rw [Membership.visibleIn, Membership.visibleIn, h.localName, h.includeIn, h.excludeFrom]
  dsimp only at hstay ⊢
  split
  · rfl
  split
  · rfl
  cases includeIn with
  | some value =>
    cases hvalue : ValueEdit.remove state Word.includeIn value with
    | none =>
      have hentries := entries_of_remove_eq_none rfl hvalue
      simp [hentries] at hstay
    | some value' =>
      rw [Option.bind_some, hvalue]
      exact contains_of_remove hother hvalue
  | none =>
    cases excludeFrom with
    | none => rfl
    | some value =>
      cases hvalue : ValueEdit.remove state Word.excludeFrom value with
      | none =>
        have hentries := entries_of_remove_eq_none rfl hvalue
        rw [Option.bind_some, hvalue]
        simp [hentries, hother]
      | some value' =>
        rw [Option.bind_some, hvalue]
        exact congrArg not (contains_of_remove hother hvalue)

/-- An element in which one list decides where it shows, if it has one. -/
structure Membership.Decisive (d : Dialect) (m : Membership) : Prop where
  one : m.includeIn = none ∨ m.excludeFrom = none
  heard : m.localName = d.skin ∨ '.' ∈ m.localName → m.includeIn = none ∧ m.excludeFrom = none

instance (d : Dialect) (m : Membership) : Decidable (m.Decisive d) :=
  decidable_of_iff
    ((m.includeIn = none ∨ m.excludeFrom = none) ∧
      (m.localName = d.skin ∨ '.' ∈ m.localName → m.includeIn = none ∧ m.excludeFrom = none))
    ⟨fun h => ⟨h.1, h.2⟩, fun h => ⟨h.one, h.heard⟩⟩

/-- **An element that goes with a state shows in no other one.** -/
theorem visibleIn_eq_false_of_isLeftOut (hm : m.Decisive d) (hother : other ≠ state)
    (hmem : other ∈ allStates) (hgoes : isLeftOut state allStates m.includeIn m.excludeFrom = true) :
    m.visibleIn d other = false := by
  obtain ⟨name, includeIn, excludeFrom⟩ := m
  dsimp only at hgoes
  have hlisted : ¬ (includeIn = none ∧ excludeFrom = none) := by
    rintro ⟨rfl, rfl⟩
    cases hgoes
  have hskin : name ≠ d.skin := fun hname => hlisted (hm.heard (Or.inl hname))
  have hcut : cutAt '.' name = none :=
    cutAt_eq_none_iff.mpr fun hdot => hlisted (hm.heard (Or.inr hdot))
  rw [Membership.visibleIn, if_neg hskin, hcut]
  dsimp only
  rw [isLeftOut, Bool.or_eq_true] at hgoes
  cases includeIn with
  | some value =>
    obtain rfl : excludeFrom = none := hm.one.resolve_left (Option.some_ne_none value)
    have hentries : StateList.entries value = [state] := by simpa using hgoes
    simp [hentries, hother]
  | none =>
    cases excludeFrom with
    | none => exact absurd ⟨rfl, rfl⟩ hlisted
    | some value =>
      simp only [Option.any_some, Option.any_none, Bool.and_eq_true, decide_eq_true_eq,
        Bool.false_eq_true, or_false] at hgoes
      -- Another state that is not excluded would be left too.
      by_contra hshown
      have hleft : other ∈ allStates.filter (!(StateList.entries value).contains ·) :=
        List.mem_filter.mpr ⟨hmem, by simpa using hshown⟩
      rw [hgoes.2, List.mem_singleton] at hleft
      exact hother hleft

end

end SkinMarkup
