import SkinMarkup.Proofs.State.CopiedTag
import SkinMarkup.State.Remove

/-!
# Start tags without a state

Dropping a state from a list in a tag's text shortens the list in the tag, and a
list without states goes (`Tidy.exists_shorter`). Removing a state from a start
tag shortens both lists of states and drops the attributes for that state:
`Removable.removeFromTag_text`.
-/

namespace SkinMarkup

/-! ## Shorter lists -/

/-- A written list without a state. There is none if no other state is left. -/
def StateList.without (state value : Text) : Option Text :=
  match (entries value).erase state with
  | [] => none
  | others => some (render others)

/-- Drops a state from the list `name`. -/
def ValueEdit.shorten (name state : Text) : ValueEdit := fun other value =>
  if other = name ∧ state ∈ StateList.entries value then StateList.without state value
  else some value

section

variable {state value value' : Text}

theorem StateList.without_eq_some (h : StateList.without state value = some value') :
    value' = StateList.render ((StateList.entries value).erase state) := by
  rw [StateList.without] at h
  split at h
  · cases h
  · exact (Option.some.inj h).symm

theorem StateList.without_of_ne_nil (h : (StateList.entries value).erase state ≠ []) :
    StateList.without state value =
      some (StateList.render ((StateList.entries value).erase state)) := by
  rw [StateList.without]
  split
  · next hnil => exact absurd hnil h
  · rfl

theorem StateList.without_eq_none_iff :
    StateList.without state value = none ↔ (StateList.entries value).erase state = [] := by
  rw [StateList.without]
  split
  · next hnil => exact iff_of_true rfl hnil
  · next hne => exact iff_of_false nofun hne

/-- A list that got a new state is written as before without it. -/
theorem StateList.without_concat (hstate : isStateName state = true)
    (hnew : state ∉ StateList.entries value) (hne : StateList.entries value ≠ []) :
    StateList.without state (StateList.render (StateList.entries value ++ [state])) =
      some (StateList.render (StateList.entries value)) := by
  have herase : (StateList.entries value ++ [state]).erase state = StateList.entries value := by
    rw [List.erase_append_right _ hnew, List.erase_cons_head, List.append_nil]
  rw [StateList.without_of_ne_nil, StateList.entries_concat hstate, herase]
  rwa [StateList.entries_concat hstate, herase]

/-- The entries that are left have whatever the list has. -/
theorem forall_mem_erase {P : Text → Prop} (hpart : ∀ part, part <:+: value → P part) :
    ∀ e ∈ (StateList.entries value).erase state, P e :=
  fun e he => hpart e (StateList.mem_entries (List.mem_of_mem_erase he)).2

end

namespace StartTag

variable {t : StartTag} {name word state value : Text}

theorem shorten_eq_some {other value' : Text}
    (h : ValueEdit.shorten name state other value = some value') :
    value' = value ∨
      other = name ∧ value' = StateList.render ((StateList.entries value).erase state) := by
  rw [ValueEdit.shorten] at h
  split at h
  · next hcond => exact Or.inr ⟨hcond.1, StateList.without_eq_some h⟩
  · exact Or.inl (Option.some.inj h).symm

theorem Clear.listValue_shorten (h : t.Clear name) {p : WrittenPiece} (hp : p ∈ t.pieces)
    (hname : p.name = name) (state : Text) :
    ListValue (StateList.render ((StateList.entries p.value).erase state)) :=
  ListValue.render (forall_mem_erase fun _ => (h.value p hp hname).of_part)

theorem Tidy.shorten (h : t.Tidy) (hclear : t.Clear name) (state : Text) :
    (t.rewrite (.shorten name state)).Tidy := by
  refine h.rewrite fun p hp value hvalue => ?_
  rcases shorten_eq_some hvalue with heq | ⟨hname, rfl⟩
  · exact Or.inl heq
  · exact Or.inr (hclear.listValue_shorten hp hname state)

theorem Clear.shorten (h : t.Clear word) (hword : IsWord word) (hclear : t.Clear name)
    (state : Text) : (t.rewrite (.shorten name state)).Clear word := by
  refine h.rewrite fun p hp value hvalue => ?_
  rcases shorten_eq_some hvalue with heq | ⟨hname, rfl⟩
  · exact Or.inl heq
  · exact Or.inr ⟨Avoids.render hword.comma (forall_mem_erase fun _ => (h.avoids p hp).of_part),
      hclear.listValue_shorten hp hname state⟩

/-- A list that has not got the state stays. -/
theorem shorten_eq_self (h : ∀ p ∈ t.pieces, p.name = name → state ∉ StateList.entries p.value) :
    t.rewrite (.shorten name state) = t := by
  refine rewrite_eq_self fun p hp => ?_
  rw [ValueEdit.shorten, if_neg]
  rintro ⟨hname, hmem⟩
  exact h p hp hname hmem

theorem value?_rewrite {f : ValueEdit} (h : ∀ value, f name value = some value) (t : StartTag) :
    (t.rewrite f).value? name = t.value? name := by
  rw [value?, value?, StartTag.rewrite]
  dsimp only
  induction t.pieces with
  | nil => rfl
  | cons p pieces ih =>
    by_cases hp : p.name = name
    · have hsome : rewritePiece f p = some p := by
        have hvalue : f p.name p.value = some p.value := hp ▸ h p.value
        rw [rewritePiece, hvalue]
        rfl
      rw [List.filterMap_cons_some hsome]
      simp [hp]
    · cases hvalue : f p.name p.value with
      | none =>
        rw [List.filterMap_cons_none (by rw [rewritePiece, hvalue]; rfl), ih]
        simp [hp]
      | some value =>
        rw [List.filterMap_cons_some (by rw [rewritePiece, hvalue]; rfl)]
        simpa [hp] using ih

theorem Tidy.eq_of_value? (h : t.Tidy) (hvalue : t.value? name = some value) {p : WrittenPiece}
    (hp : p ∈ t.pieces) (hname : p.name = name) : p.value = value := by
  have hown := h.value?_of_mem hp
  rw [hname, hvalue] at hown
  exact (Option.some.inj hown).symm

/-- **Dropping a state from a list in a tag's text shortens the list in the tag.** -/
theorem Tidy.exists_shorter (h : t.Tidy) (hclear : t.Clear name)
    (hvalue : t.value? name = some value) (hmem : state ∈ StateList.entries value)
    (hsolid : StateList.entries value = [state] →
      ∀ p ∈ t.pieces.head?, p.name = name → t.Solid) (selfClosing : Bool) :
    ∃ slot, ValueSlot.find? name (t.text selfClosing) = some slot ∧ slot.value = value ∧
      StateList.drop slot state = (t.rewrite (.shorten name state)).text selfClosing := by
  obtain ⟨slot, hfind, hslot, hreplace, hremove⟩ := h.exists_slot hclear hvalue selfClosing
  refine ⟨slot, hfind, hslot, ?_⟩
  have hown : ∀ p ∈ t.pieces, p.name = name → p.value = value := fun p hp => h.eq_of_value? hvalue hp
  rw [StateList.drop, hslot]
  split
  · next hnil =>
    have hone := (List.erase_eq_nil_iff.mp hnil).resolve_left (List.ne_nil_of_mem hmem)
    rw [hremove (hsolid hone)]
    congr 1
    refine rewrite_congr fun p hp => ?_
    by_cases hname : p.name = name
    · simp [ValueEdit.drop, ValueEdit.shorten, hname, hown p hp hname, hmem,
        StateList.without_eq_none_iff.mpr hnil]
    · simp [ValueEdit.drop, ValueEdit.shorten, hname]
  · next hne =>
    rw [hreplace]
    congr 1
    refine rewrite_congr fun p hp => ?_
    by_cases hname : p.name = name
    · simp [ValueEdit.set, ValueEdit.shorten, hname, hown p hp hname, hmem,
        StateList.without_of_ne_nil hne]
    · simp [ValueEdit.set, ValueEdit.shorten, hname]

end StartTag

/-! ## A start tag without a state -/

/-- Whether an element with the given lists is in no state but the given one. -/
def isLeftOut (state : Text) (allStates : List Text) (includeIn excludeFrom : Option Text) : Bool :=
  (excludeFrom.any fun value => !(StateList.entries value).contains state &&
      decide (allStates.filter (!(StateList.entries value).contains ·) = [state])) ||
    includeIn.any fun value => decide (StateList.entries value = [state])

/-- Drops a state: from the lists of an element's states, and with the attributes
that apply to it. -/
def ValueEdit.remove (state : Text) : ValueEdit := fun name value =>
  if (stemFor? state name).isSome then none
  else if Word.isStateList name && (StateList.entries value).contains state then
    StateList.without state value
  else some value

namespace StartTag

variable {t : StartTag} {state : Text} {allStates : List Text} {selfClosing : Bool}

theorem stemFor?_of_isWord {name : Text} (h : IsWord name) (state : Text) :
    stemFor? state name = none :=
  stemFor?_of_dot h.dot state

/-- The list of a document's states stays when a state is removed from a start tag. -/
theorem remove_states (state value : Text) :
    ValueEdit.remove state Word.states value = some value := by
  have hlist : Word.isStateList Word.states = false := rfl
  simp [ValueEdit.remove, stemFor?_of_isWord isWord_states, hlist]

/-- Whether the element goes together with a state. -/
def goes (state : Text) (allStates : List Text) (t : StartTag) : Bool :=
  isLeftOut state allStates (t.value? Word.includeIn) (t.value? Word.excludeFrom)

/-- The tag without a state. -/
def removed (state : Text) (t : StartTag) : StartTag :=
  t.rewrite (.remove state)

/-- Shortening both lists and dropping the attributes for a state removes it. -/
theorem rewrite_remove (state : Text) (t : StartTag) :
    ((t.rewrite (.shorten Word.excludeFrom state)).rewrite (.shorten Word.includeIn state)).rewrite
        (.drop fun name => (stemFor? state name).isSome) = t.removed state := by
  rw [rewrite_rewrite, rewrite_rewrite]
  refine rewrite_congr fun p _ => ?_
  have hne : Word.excludeFrom ≠ Word.includeIn := by decide
  have hdrop : Word.isStateList p.name = true → ∀ value : Option Text,
      (value.bind (ValueEdit.drop (fun name => (stemFor? state name).isSome) p.name)) = value := by
    intro hlist value
    cases value with
    | none => rfl
    | some value => simp [ValueEdit.drop, stemFor?_of_isStateList hlist]
  cases hlist : Word.isStateList p.name with
  | false =>
    have hexclude : p.name ≠ Word.excludeFrom := by
      rintro heq
      rw [heq] at hlist
      cases hlist
    have hinclude : p.name ≠ Word.includeIn := by
      rintro heq
      rw [heq] at hlist
      cases hlist
    simp [ValueEdit.shorten, ValueEdit.drop, ValueEdit.remove, hexclude, hinclude, hlist]
  | true =>
    have hstem : stemFor? state p.name = none := stemFor?_of_isStateList hlist
    simp only [hdrop hlist]
    simp only [Word.isStateList, Bool.or_eq_true, beq_iff_eq] at hlist
    rcases hlist with hname | hname
    · by_cases hmem : state ∈ StateList.entries p.value
      · simp [ValueEdit.shorten, ValueEdit.remove, Word.isStateList, hname, hne.symm, hmem,
          hname ▸ hstem]
      · simp [ValueEdit.shorten, ValueEdit.remove, Word.isStateList, hname, hne.symm, hmem,
          hname ▸ hstem]
    · by_cases hmem : state ∈ StateList.entries p.value
      · simp [ValueEdit.shorten, ValueEdit.remove, Word.isStateList, hname, hne, hmem, hname ▸ hstem]
      · simp [ValueEdit.shorten, ValueEdit.remove, Word.isStateList, hname, hne, hmem, hname ▸ hstem]

/-- A start tag that a state can be removed from. A list that goes stands behind a
name that ends in no blank. -/
structure Removable (state : Text) (t : StartTag) : Prop extends t.Listed where
  solid : ∀ value, t.value? Word.excludeFrom = some value → StateList.entries value = [state] →
    ∀ p ∈ t.pieces.head?, p.name = Word.excludeFrom → t.Solid

theorem Listed.shorten_excludeFrom (h : t.Listed) (state : Text) :
    (t.rewrite (.shorten Word.excludeFrom state)).Listed :=
  ⟨h.tidy.shorten h.excludeFrom state, h.includeIn.shorten isWord_includeIn h.excludeFrom state,
    h.excludeFrom.shorten isWord_excludeFrom h.excludeFrom state⟩

theorem Listed.shorten_includeIn (h : t.Listed) (state : Text) :
    (t.rewrite (.shorten Word.includeIn state)).Listed :=
  ⟨h.tidy.shorten h.includeIn state, h.includeIn.shorten isWord_includeIn h.includeIn state,
    h.excludeFrom.shorten isWord_excludeFrom h.includeIn state⟩

/-- Dropping a state from the states that a tag is missing from. -/
theorem Removable.dropExcluded_text (h : t.Removable state) (allStates : List Text) (selfClosing : Bool) :
    dropExcluded state allStates (t.text selfClosing) =
      if ((t.value? Word.excludeFrom).any fun value => !(StateList.entries value).contains state &&
        decide (allStates.filter (!(StateList.entries value).contains ·) = [state])) then none
      else some ((t.rewrite (.shorten Word.excludeFrom state)).text selfClosing) := by
  cases hvalue : t.value? Word.excludeFrom with
  | none =>
    have hnone := h.tidy.find?_of_value?_eq_none h.excludeFrom isWord_excludeFrom.nonempty
      isWord_excludeFrom.chars hvalue selfClosing
    have hself : t.rewrite (.shorten Word.excludeFrom state) = t :=
      shorten_eq_self fun p hp hname => absurd (hname ▸ List.mem_map_of_mem hp) (not_mem_of_value? hvalue)
    rw [dropExcluded, hnone, hself]
    rfl
  | some value =>
    by_cases hmem : state ∈ StateList.entries value
    · obtain ⟨slot, hfind, hslot, hdrop⟩ :=
        h.tidy.exists_shorter h.excludeFrom hvalue hmem (h.solid value hvalue) selfClosing
      simp [dropExcluded, hfind, hslot, hmem, hdrop]
    · obtain ⟨slot, hfind, hslot, -⟩ := h.tidy.exists_slot h.excludeFrom hvalue selfClosing
      have hself : t.rewrite (.shorten Word.excludeFrom state) = t :=
        shorten_eq_self fun p hp hname => h.tidy.eq_of_value? hvalue hp hname ▸ hmem
      simp [dropExcluded, hfind, hslot, hmem, hself]

/-- Dropping a state from the states that a tag appears in. -/
theorem Listed.dropIncluded_text (h : t.Listed) (state : Text) (selfClosing : Bool) :
    dropIncluded state (t.text selfClosing) =
      if ((t.value? Word.includeIn).any fun value => decide (StateList.entries value = [state])) then
        none
      else some ((t.rewrite (.shorten Word.includeIn state)).text selfClosing) := by
  cases hvalue : t.value? Word.includeIn with
  | none =>
    have hnone := h.tidy.find?_of_value?_eq_none h.includeIn isWord_includeIn.nonempty
      isWord_includeIn.chars hvalue selfClosing
    have hself : t.rewrite (.shorten Word.includeIn state) = t :=
      shorten_eq_self fun p hp hname => absurd (hname ▸ List.mem_map_of_mem hp) (not_mem_of_value? hvalue)
    rw [dropIncluded, hnone, hself]
    rfl
  | some value =>
    obtain ⟨slot, hfind, hslot, hreplace, -⟩ := h.tidy.exists_slot h.includeIn hvalue selfClosing
    by_cases hmem : state ∈ StateList.entries value
    · rw [dropIncluded, hfind]
      dsimp only
      rw [hslot, if_pos (by simpa using hmem)]
      split
      · next hnil =>
        have hone := (List.erase_eq_nil_iff.mp hnil).resolve_left (List.ne_nil_of_mem hmem)
        simp [hone]
      · next hne =>
        have hmore : StateList.entries value ≠ [state] := by
          intro hone
          exact hne (by simp [hone])
        have hrewrite : t.rewrite (.shorten Word.includeIn state) =
            t.rewrite (.set Word.includeIn
              (StateList.render ((StateList.entries value).erase state))) := by
          refine rewrite_congr fun p hp => ?_
          by_cases hname : p.name = Word.includeIn
          · simp [ValueEdit.set, ValueEdit.shorten, hname, h.tidy.eq_of_value? hvalue hp hname, hmem,
              StateList.without_of_ne_nil hne]
          · simp [ValueEdit.set, ValueEdit.shorten, hname]
        simp [hmore, hreplace, hrewrite]
    · have hself : t.rewrite (.shorten Word.includeIn state) = t :=
        shorten_eq_self fun p hp hname => h.tidy.eq_of_value? hvalue hp hname ▸ hmem
      have hmore : StateList.entries value ≠ [state] := by
        intro hone
        exact hmem (by simp [hone])
      simp [dropIncluded, hfind, hslot, hmem, hmore, hself]

/-- **Removing a state from a tag's text removes it from the tag.** -/
theorem Removable.removeFromTag_text (h : t.Removable state) (allStates : List Text) (selfClosing : Bool) :
    removeFromTag state allStates (t.text selfClosing) =
      if t.goes state allStates then none else some ((t.removed state).text selfClosing) := by
  have hincluded : (t.rewrite (.shorten Word.excludeFrom state)).value? Word.includeIn =
      t.value? Word.includeIn := by
    refine value?_rewrite (fun value => ?_) t
    rw [ValueEdit.shorten, if_neg]
    rintro ⟨heq, -⟩
    exact absurd heq (by decide)
  have hlisted := h.toListed.shorten_excludeFrom state
  rw [removeFromTag, h.dropExcluded_text, goes, isLeftOut]
  cases (t.value? Word.excludeFrom).any fun value => !(StateList.entries value).contains state &&
      decide (allStates.filter (!(StateList.entries value).contains ·) = [state]) with
  | true => rfl
  | false =>
    dsimp only [bind, Option.bind, Bool.false_or]
    rw [if_neg (by simp)]
    dsimp only
    rw [hlisted.dropIncluded_text, hincluded]
    cases (t.value? Word.includeIn).any fun value => decide (StateList.entries value = [state]) with
    | true => rfl
    | false =>
      rw [if_neg (by simp), if_neg (by simp)]
      dsimp only
      have hstrip := (hlisted.shorten_includeIn state).tidy.without_text
        (fun name => (stemFor? state name).isSome) selfClosing
      rw [rewrite_remove] at hstrip
      rw [stripAttributes, hstrip]
      rfl

/-! ## What is read without a state -/

theorem Listed.tidy_removed (h : t.Listed) (state : Text) : (t.removed state).Tidy := by
  rw [← rewrite_remove]
  refine ((h.shorten_excludeFrom state).shorten_includeIn state).tidy.rewrite fun p hp value hvalue => ?_
  rw [ValueEdit.drop] at hvalue
  split at hvalue
  · cases hvalue
  · exact Or.inl (Option.some.inj hvalue).symm

/-- The value that an attribute keeps, or a shorter list. -/
theorem remove_eq_some {name value value' : Text}
    (h : ValueEdit.remove state name value = some value') :
    value' = value ∨ Word.isStateList name = true ∧
      value' = StateList.render ((StateList.entries value).erase state) := by
  rw [ValueEdit.remove] at h
  split at h
  · cases h
  · split at h
    · next hlist =>
      rw [Bool.and_eq_true] at hlist
      exact Or.inr ⟨hlist.1, StateList.without_eq_some h⟩
    · exact Or.inl (Option.some.inj h).symm

/-- **What is read from a start tag without a state.** -/
theorem Listed.entriesOf?_removed (h : t.Listed) {entries : List (Text × Text)}
    (hentries : entriesOf? t.content = some entries)
    (hplain : ∀ p ∈ t.pieces, Word.isStateList p.name = true → '&' ∉ p.value) (state : Text) :
    entriesOf? (t.removed state).content =
      some (entries.filterMap (ValueEdit.remove state).entry) := by
  refine h.tidy.regular.entriesOf?_rewrite (h.tidy_removed state).regular hentries fun p hp => ?_
  cases hstem : stemFor? state p.name with
  | some stem => exact ValueEdit.reads_of_none fun value => by simp [ValueEdit.remove, hstem]
  | none =>
    cases hlist : Word.isStateList p.name with
    | false => exact ValueEdit.reads_of_eq fun value => by simp [ValueEdit.remove, hstem, hlist]
    | true =>
      have hold := hplain p hp hlist
      refine ValueEdit.reads_of_not_mem hold fun value' hvalue' => ?_
      rcases remove_eq_some hvalue' with rfl | ⟨-, rfl⟩
      · exact hold
      · exact not_mem_render (by decide) (forall_mem_erase fun _ hpart hmem =>
          hold (hpart.subset hmem))

end StartTag

end SkinMarkup
