import SkinMarkup.Proofs.State.Copying
import SkinMarkup.Proofs.State.DeclaredNames
import SkinMarkup.Proofs.State.RemovedMarkup

/-!
# Start tags that had a copy

A start tag to which a copy of a state was added and removed again is what it was
(`removed_copied`). Its element does not go with the copy: if it lists the copy, it
lists its model too (`goes_copied`), and it does not declare the copy
(`declaresState_copied`). The root is what it was without the copy in its list of
states (`Root.shorten_declared`).
-/

namespace SkinMarkup

namespace StartTag

variable {t : StartTag} {name value model state : Text} {allStates : List Text} {selfClosing : Bool}

/-- A start tag in which the lists with a state are written as they are read. -/
def Normal (model : Text) (t : StartTag) : Prop :=
  ∀ p ∈ t.pieces, Word.isStateList p.name = true → model ∈ StateList.entries p.value →
    StateList.render (StateList.entries p.value) = p.value

theorem stemFor?_eq_none_of_fresh (hfresh : ¬ state <:+: t.content) {p : WrittenPiece}
    (hp : p ∈ t.pieces) : stemFor? state p.name = none := by
  cases hstem : stemFor? state p.name with
  | none => rfl
  | some stem => exact absurd (mem_of_stemFor? hstem).1 (ne_of_fresh hfresh hp stem)

section

variable (hstate : isStateName state = true) (hfresh : ¬ state <:+: t.content)

include hstate hfresh

/-- A list that got a new state has its old value without it. -/
theorem remove_copy (hnormal : t.Normal model) {p : WrittenPiece} (hp : p ∈ t.pieces) :
    ((ValueEdit.copy model state p.name p.value).bind (ValueEdit.remove state p.name)) =
      some p.value := by
  have hnew := not_mem_entries_of_fresh hfresh hp
  rw [ValueEdit.copy, Option.bind_some, ValueEdit.remove, stemFor?_eq_none_of_fresh hfresh hp]
  cases hlist : Word.isStateList p.name with
  | false => simp
  | true =>
    by_cases hmodel : model ∈ StateList.entries p.value
    · have hwithout := StateList.without_concat hstate hnew (List.ne_nil_of_mem hmodel)
      rw [hnormal p hp hlist hmodel] at hwithout
      simp [hmodel, StateList.entries_concat hstate, hwithout]
    · simp [hmodel, hnew]

/-- **A tag without a copied state is what it was before.** -/
theorem removed_copied (hnormal : t.Normal model) : (t.copied model state).removed state = t := by
  have hrewrite : (t.rewrite (.copy model state)).rewrite (.remove state) = t := by
    rw [rewrite_rewrite, rewrite_eq_self]
    exact fun p hp => remove_copy hstate hfresh hnormal hp
  have hcopies : (t.copies model state).filterMap (rewritePiece (.remove state)) = [] := by
    rw [List.filterMap_eq_nil_iff]
    intro q hq
    obtain ⟨p, -, stem, hne, -, rfl⟩ := mem_copies hq
    simp [rewritePiece, ValueEdit.remove, stemFor?_append hne]
  rw [removed, copied, StartTag.rewrite, StartTag.append]
  dsimp only
  rw [List.filterMap_append, hcopies, List.append_nil]
  exact hrewrite

omit hfresh in
/-- The lists of a copy come from lists of the tag. -/
theorem exists_of_value?_copied (hname : Word.isStateList name = true)
    (hvalue : (t.copied model state).value? name = some value) :
    ∃ p ∈ t.pieces, p.name = name ∧ StateList.entries value =
      if (StateList.entries p.value).contains model then StateList.entries p.value ++ [state]
      else StateList.entries p.value := by
  obtain ⟨l, q, r, hsplit, rfl, rfl⟩ := exists_split hvalue
  have hq := (mem_of_split hsplit).1
  rcases List.mem_append.mp hq with hq | hq
  · obtain ⟨p, hp, value, hcopy, rfl⟩ := mem_rewrite hq
    refine ⟨p, hp, rfl, ?_⟩
    change Word.isStateList p.name = true at hname
    rw [ValueEdit.copy, hname, Bool.true_and, Option.some.injEq] at hcopy
    rw [← hcopy]
    exact entries_copy hstate model p.value
  · obtain ⟨p, -, stem, hne, -, rfl⟩ := mem_copies hq
    cases (stemFor?_of_isStateList hname).symm.trans (stemFor?_append hne state)

/-- No list of a copy has the new state alone. -/
theorem ne_of_value?_copied (hname : Word.isStateList name = true)
    (hvalue : (t.copied model state).value? name = some value) :
    StateList.entries value ≠ [state] := by
  obtain ⟨p, hp, -, hentries⟩ := exists_of_value?_copied hstate hname hvalue
  intro hone
  rw [hone] at hentries
  split at hentries
  · next hmodel =>
    have hnil : StateList.entries p.value = [] := by
      cases hold : StateList.entries p.value with
      | nil => rfl
      | cons first others => simp [hold] at hentries
    rw [hnil] at hmodel
    cases hmodel
  · exact not_mem_entries_of_fresh hfresh hp (hentries ▸ List.mem_cons_self)

/-- **An element does not go with a copy,** since its model shows it too, or
hides it too. -/
theorem goes_copied (hmodel : model ∈ allStates) :
    (t.copied model state).goes state (allStates ++ [state]) = false := by
  rw [goes, isLeftOut, Bool.or_eq_false_iff]
  constructor
  · cases hvalue : (t.copied model state).value? Word.excludeFrom with
    | none => rfl
    | some value =>
      obtain ⟨p, hp, -, hentries⟩ := exists_of_value?_copied hstate rfl hvalue
      rw [Option.any_some, Bool.and_eq_false_iff]
      by_cases hlisted : (StateList.entries p.value).contains model = true
      · rw [if_pos hlisted] at hentries
        exact Or.inl (by simp [hentries])
      · -- The element is visible in the model, so not in the copy alone.
        rw [if_neg hlisted] at hentries
        refine Or.inr (decide_eq_false fun hone => ?_)
        have hself : state ∉ StateList.entries value := hentries ▸ not_mem_entries_of_fresh hfresh hp
        have hothers : allStates.filter (!(StateList.entries value).contains ·) = [] := by
          simpa [List.filter_append, hself] using hone
        have hmem : model ∈ allStates.filter (!(StateList.entries value).contains ·) :=
          List.mem_filter.mpr ⟨hmodel, by simpa [hentries] using hlisted⟩
        rw [hothers] at hmem
        cases hmem
  · cases hvalue : (t.copied model state).value? Word.includeIn with
    | none => rfl
    | some value => exact decide_eq_false (ne_of_value?_copied hstate hfresh rfl hvalue)

theorem Listed.removable_copied (h : t.Listed) : (t.copied model state).Removable state where
  tidy := h.tidy_copied hstate hfresh
  includeIn := h.clear_copied hstate isWord_includeIn h.includeIn
  excludeFrom := h.clear_copied hstate isWord_excludeFrom h.excludeFrom
  solid := fun _ hvalue hone => absurd hone (ne_of_value?_copied hstate hfresh rfl hvalue)

omit hstate in
theorem Listed.removable_of_fresh (h : t.Listed) : t.Removable state where
  toListed := h
  solid := fun value hvalue hone => by
    obtain ⟨l, p, r, hsplit, -, rfl⟩ := exists_split hvalue
    exact absurd (hone ▸ List.mem_cons_self)
      (not_mem_entries_of_fresh hfresh (mem_of_split hsplit).1)

omit hstate in
/-- A new state at the end of a list stands behind a comma. -/
theorem behind_render (hstate : isStateName state = true) {p : WrittenPiece} (hp : p ∈ t.pieces)
    (hne : StateList.entries p.value ≠ []) :
    Behind state (StateList.render (StateList.entries p.value ++ [state])) := by
  refine Or.inr ⟨_, ',', Or.inl rfl, StateList.render_concat hne state, fun hpart => ?_⟩
  obtain ⟨entry, hentry, hpart⟩ := StateList.isInfix_render (isEntry_of_isStateName hstate).comma
    (ne_nil_of_isStateName hstate) hpart
  exact hfresh ((hpart.trans (StateList.mem_entries hentry).2).trans (part_of_mem hp).2)

theorem behind_copied {q : WrittenPiece} (hq : q ∈ (t.copied model state).pieces) :
    Behind state q.name ∧ Behind state q.value := by
  have hpart : ∀ {p : WrittenPiece}, p ∈ t.pieces → ¬ state <:+: p.name ∧ ¬ state <:+: p.value :=
    fun hp => ⟨fun h => hfresh (h.trans (part_of_mem hp).1), fun h => hfresh (h.trans (part_of_mem hp).2)⟩
  rcases List.mem_append.mp hq with hq | hq
  · obtain ⟨p, hp, value, hvalue, rfl⟩ := mem_rewrite hq
    refine ⟨Or.inl (hpart hp).1, ?_⟩
    rw [ValueEdit.copy, Option.some.injEq] at hvalue
    subst hvalue
    dsimp only
    split
    · next hlist =>
      rw [Bool.and_eq_true, List.contains_iff_mem] at hlist
      exact behind_render hfresh hstate hp (List.ne_nil_of_mem hlist.2)
    · exact Or.inl (hpart hp).2
  · obtain ⟨p, hp, stem, -, hname, rfl⟩ := mem_copies hq
    refine ⟨Or.inr ⟨stem, '.', Or.inr rfl, rfl, fun h => (hpart hp).1 ?_⟩, Or.inl (hpart hp).2⟩
    rw [hname]
    exact h.trans (List.prefix_append _ _).isInfix

omit hstate in
theorem not_isInfix_name : ¬ state <:+: t.name :=
  fun h => hfresh (h.trans (List.prefix_append _ _).isInfix)

/-- **No element declares a copy by its name.** -/
theorem Listed.declaresState_copied (h : t.Listed) (selfClosing : Bool) :
    declaresState state ((t.copied model state).text selfClosing) = false := by
  have hname : ¬ state <:+: t.name := not_isInfix_name hfresh
  exact (h.tidy_copied hstate hfresh).declaresState_eq_false hstate hname
    (fun _ hq => behind_copied hstate hfresh hq) selfClosing

end

/-! ## The root -/

theorem value?_append {pieces : List WrittenPiece} (h : ∀ p ∈ pieces, p.name ≠ name) :
    (t.append pieces).value? name = t.value? name := by
  have hnone : pieces.find? (·.name = name) = none := by
    rw [List.find?_eq_none]
    exact fun p hp => by simpa using h p hp
  rw [value?, value?, StartTag.append, List.find?_append, hnone, Option.or_none]

theorem value?_declared (hname : name ≠ Word.states) (state : Text) :
    (t.declared state).value? name = t.value? name := by
  rw [StartTag.declared]
  split
  · exact value?_rewrite (fun value => by simp [ValueEdit.extend, hname]) t
  · refine value?_append fun p hp => ?_
    rw [List.mem_singleton.mp hp]
    exact Ne.symm hname

theorem value?_states_copied : (t.copied model state).value? Word.states = t.value? Word.states := by
  rw [copied, value?_append]
  · exact value?_rewrite (fun value => by simp [ValueEdit.copy, Word.isStateList, Word.states,
      Word.includeIn, Word.excludeFrom]) t
  · intro q hq heq
    obtain ⟨p, -, stem, -, -, rfl⟩ := mem_copies hq
    exact isWord_states.dot (by simp [← heq])

theorem goes_declared (state : Text) (allStates : List Text) :
    (t.declared state).goes state allStates = t.goes state allStates := by
  rw [goes, goes, value?_declared (by decide), value?_declared (by decide)]

/-- Removing a state from a root does not touch the list of a document's states. -/
theorem removed_declared (state : Text) (t : StartTag) :
    (t.declared state).removed state = (t.removed state).declared state := by
  have hvalue : (t.removed state).value? Word.states = t.value? Word.states :=
    value?_rewrite (remove_states state) t
  cases hold : t.value? Word.states with
  | some value =>
    rw [declared_of_some hold, declared_of_some (hvalue.trans hold), removed, removed,
      rewrite_rewrite, rewrite_rewrite]
    refine rewrite_congr fun p _ => ?_
    by_cases hname : p.name = Word.states
    · simp [ValueEdit.extend, hname, remove_states]
    · cases hkept : ValueEdit.remove state p.name p.value with
      | none => simp [ValueEdit.extend, hname, hkept]
      | some value => simp [ValueEdit.extend, hname, hkept]
  | none =>
    rw [declared_of_none hold, declared_of_none (hvalue.trans hold), removed, removed]
    have hnew : rewritePiece (.remove state) (.usual Word.states state) =
        some (.usual Word.states state) := by
      have hkept := remove_states state state
      simp only [rewritePiece, WrittenPiece.usual] at hkept ⊢
      rw [hkept]
      rfl
    simp [StartTag.rewrite, StartTag.append, hnew]

theorem Listed.removable_declared (h : t.Listed) (hclear : t.Clear Word.states)
    (hstate : isStateName state = true)
    (hne : ∀ value, t.value? Word.excludeFrom = some value → StateList.entries value ≠ [state]) :
    (t.declared state).Removable state where
  tidy := h.tidy.declared hclear hstate
  includeIn := h.includeIn.declared isWord_includeIn hclear hstate
  excludeFrom := h.excludeFrom.declared isWord_excludeFrom hclear hstate
  solid := fun value hvalue hone =>
    absurd hone (hne value (by rwa [value?_declared (by decide)] at hvalue))

/-- **A root without a state that was declared is what it was before.** -/
theorem Root.shorten_declared (h : t.Root state) (hstate : isStateName state = true)
    (hnormal : ∀ value, t.value? Word.states = some value →
      StateList.entries value ≠ [] ∧ StateList.render (StateList.entries value) = value) :
    (t.declared state).rewrite (.shorten Word.states state) = t := by
  cases hvalue : t.value? Word.states with
  | some value =>
    obtain ⟨hne, hrender⟩ := hnormal value hvalue
    rw [declared_of_some hvalue, rewrite_rewrite, rewrite_eq_self]
    intro p hp
    by_cases hname : p.name = Word.states
    · have hown := h.tidy.eq_of_value? hvalue hp hname
      have hnew : state ∉ StateList.entries value := hown ▸ h.fresh p hp hname
      have hwithout := StateList.without_concat hstate hnew hne
      rw [hrender] at hwithout
      simp [ValueEdit.extend, ValueEdit.shorten, hname, hown, StateList.entries_concat hstate, hwithout]
    · simp [ValueEdit.extend, ValueEdit.shorten, hname]
  | none =>
    have hself : t.rewrite (.shorten Word.states state) = t :=
      shorten_eq_self fun p hp hname => absurd (hname ▸ List.mem_map_of_mem hp) (not_mem_of_value? hvalue)
    have hnew : rewritePiece (.shorten Word.states state) (.usual Word.states state) = none := by
      have hentries := StateList.entries_of_isStateName hstate
      have hwithout : StateList.without state state = none := by
        rw [StateList.without_eq_none_iff, hentries, List.erase_cons_head]
      simp [rewritePiece, WrittenPiece.usual, ValueEdit.shorten, hentries, hwithout]
    rw [declared_of_none hvalue, StartTag.rewrite, StartTag.append]
    dsimp only
    rw [List.filterMap_append, List.filterMap_cons_none hnew, List.filterMap_nil, List.append_nil]
    exact hself

/-- A list that goes from the root is the last attribute, behind others or behind
a name that ends in no blank. -/
theorem Root.solid_declared (h : t.Root state) (hstate : isStateName state = true)
    (hnormal : ∀ value, t.value? Word.states = some value → StateList.entries value ≠ []) :
    ∀ value, (t.declared state).value? Word.states = some value →
      StateList.entries value = [state] →
        ∀ p ∈ (t.declared state).pieces.head?, p.name = Word.states → (t.declared state).Solid := by
  intro value hvalue hone p hp hname
  cases hold : t.value? Word.states with
  | some old =>
    rw [declared_of_some hold] at hvalue
    obtain ⟨l, q, r, hsplit, hq, rfl⟩ := exists_split hvalue
    obtain ⟨x, hx, value, hextend, rfl⟩ := mem_rewrite (mem_of_split hsplit).1
    change x.name = Word.states at hq
    simp only [ValueEdit.extend, hq, true_and, if_true, Option.some.injEq] at hextend
    rw [← hextend, StateList.entries_concat hstate, h.tidy.eq_of_value? hold hx hq] at hone
    exact absurd (List.append_left_eq_self.mp hone) (hnormal old hold)
  | none =>
    have hsolid : t.pieces = [] → t.Solid := h.solid
    rw [declared_of_none hold] at hp ⊢
    cases hpieces : t.pieces with
    | nil => exact hsolid hpieces
    | cons x xs =>
      rw [StartTag.append, hpieces] at hp
      cases hp
      exact absurd (hname ▸ List.mem_map_of_mem (hpieces ▸ List.mem_cons_self))
        (not_mem_of_value? hold)

section

variable (hstate : isStateName state = true) (hfresh : ¬ state <:+: t.content)

include hstate

/-- What no value mentions is not mentioned in a copy. -/
theorem avoids_copied {word : Text} (hword : IsWord word) (h : ∀ p ∈ t.pieces, Avoids word p.value)
    {q : WrittenPiece} (hq : q ∈ (t.copied model state).pieces) : Avoids word q.value := by
  rcases List.mem_append.mp hq with hq | hq
  · obtain ⟨p, hp, value, hvalue, rfl⟩ := mem_rewrite hq
    rw [ValueEdit.copy, Option.some.injEq] at hvalue
    subst hvalue
    dsimp only
    split
    · exact Avoids.render hword.comma (forall_mem_concat (fun _ => (h p hp).of_part)
        (avoids_of_isStateName hstate word))
    · exact h p hp
  · obtain ⟨p, hp, stem, -, -, rfl⟩ := mem_copies hq
    exact h p hp

include hfresh

/-- A root with a list of states does not declare a copy by its name. -/
theorem Listed.declaresState_of_states (h : t.Listed) (hclear : t.Clear Word.states)
    (hvalue : t.value? Word.states = some value) (hne : StateList.entries value ≠ [])
    (selfClosing : Bool) :
    declaresState state (((t.copied model state).declared state).text selfClosing) = false := by
  have hstates : (t.copied model state).Clear Word.states :=
    h.clear_copied hstate isWord_states hclear
  have htidy : ((t.copied model state).declared state).Tidy :=
    (h.tidy_copied hstate hfresh).declared hstates hstate
  have hname : ¬ state <:+: t.name := not_isInfix_name hfresh
  refine htidy.declaresState_eq_false hstate (by rwa [name_declared]) (fun q hq => ?_) selfClosing
  rw [declared_of_some (value?_states_copied.trans hvalue)] at hq
  obtain ⟨p, hp, value', hvalue', rfl⟩ := mem_rewrite hq
  obtain ⟨hbehindName, hbehindValue⟩ := behind_copied hstate hfresh hp
  refine ⟨hbehindName, ?_⟩
  rcases extend_eq_some hvalue' with rfl | ⟨hlist, rfl⟩
  · exact hbehindValue
  · have hold := mem_of_mem_copied hp hlist
    refine behind_render hfresh hstate hold ?_
    rwa [h.tidy.eq_of_value? hvalue hold hlist]

/-- Nor does a root without one, if none of its values mentions a name. -/
theorem Listed.declaresState_of_avoids (h : t.Listed) (hclear : t.Clear Word.states)
    (hvalue : t.value? Word.states = none) (havoids : ∀ p ∈ t.pieces, Avoids Word.name p.value)
    (selfClosing : Bool) :
    declaresState state (((t.copied model state).declared state).text selfClosing) = false := by
  have hstates : (t.copied model state).Clear Word.states :=
    h.clear_copied hstate isWord_states hclear
  have htidy : ((t.copied model state).declared state).Tidy :=
    (h.tidy_copied hstate hfresh).declared hstates hstate
  rw [declared_of_none (value?_states_copied.trans hvalue)] at htidy ⊢
  have hall : ∀ q ∈ ((t.copied model state).append [.usual Word.states state]).pieces,
      Avoids Word.name q.value := by
    intro q hq
    rcases List.mem_append.mp hq with hq | hq
    · exact avoids_copied hstate isWord_name havoids hq
    · rw [List.mem_singleton.mp hq]
      exact avoids_of_isStateName hstate Word.name
  cases hfind : ValueSlot.find? Word.name
      (((t.copied model state).append [.usual Word.states state]).text selfClosing) with
  | none => rw [declaresState, hfind]; rfl
  | some slot =>
    -- The tag has a name, and what is found is a part of it.
    by_cases hmem : Word.name ∈
        ((t.copied model state).append [.usual Word.states state]).pieces.map (·.name)
    · obtain ⟨q, hq, hname⟩ := List.mem_map.mp hmem
      have hpart := htidy.find?_part hq (hname ▸ hall) (hname ▸ hfind)
      have hold : q ∈ t.pieces := by
        rcases List.mem_append.mp hq with hq | hq
        · refine (mem_copied hq (by rw [hname]; rfl)).resolve_right fun hcopy => ?_
          obtain ⟨p, -, stem, -, -, rfl⟩ := mem_copies hcopy
          exact isWord_name.dot (by simp [← hname])
        · rw [List.mem_singleton.mp hq] at hname
          exact absurd hname (show Word.states ≠ Word.name by decide)
      rw [declaresState, hfind, Option.any_some, beq_eq_false_iff_ne]
      rintro rfl
      exact hfresh (((trim_part _).trans hpart).trans (part_of_mem hold).2)
    · rw [htidy.toSpaced.find?_eq_none isWord_name.nonempty isWord_name.chars hmem
        fun x hx => (hall x hx).spares] at hfind
      cases hfind

end

end StartTag

end SkinMarkup
