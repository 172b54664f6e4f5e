import SkinMarkup.Proofs.State.RenamedTag
import SkinMarkup.Proofs.State.Sites

/-!
# Components that a blank state hides

A component is kept out of a new state by its lists of states: if it is missing
from some states, it is missing from the new one too, and if it appears
everywhere, it gets a list of all other states (`StartTag.scopedOut`). Then it
cannot be seen in the new state, and in the others it is seen as before
(`ScopedOut.visibleIn_eq_false`, `ScopedOut.visibleIn_eq`).
-/

namespace SkinMarkup

namespace StartTag

variable {t : StartTag} {allStates : List Text} {state : Text} {selfClosing : Bool}

/-- The start tag of a component that is missing from a new state. -/
def scopedOut (allStates : List Text) (state : Text) (t : StartTag) : StartTag :=
  if (t.value? Word.includeIn).isSome then t
  else if (t.value? Word.excludeFrom).isSome then
    t.rewrite (.extend Word.excludeFrom state fun _ => true)
  else t.append [.usual Word.includeIn (StateList.render allStates)]

theorem Ready.isSome_find?_iff (h : t.Ready) {word : Text} (hword : Word.isStateList word = true)
    (selfClosing : Bool) :
    (ValueSlot.find? word (t.text selfClosing)).isSome = (t.value? word).isSome := by
  have hclear : t.Clear word := by
    rw [Word.isStateList, Bool.or_eq_true, beq_iff_eq, beq_iff_eq] at hword
    rcases hword with rfl | rfl
    · exact h.listed.includeIn
    · exact h.listed.excludeFrom
  have hisWord := isWord_of_isStateList hword
  cases hvalue : t.value? word with
  | none =>
    rw [h.listed.tidy.find?_of_value?_eq_none hclear hisWord.nonempty hisWord.chars hvalue]
    rfl
  | some value =>
    obtain ⟨slot, hfind, -⟩ := h.listed.tidy.exists_slot hclear hvalue selfClosing
    rw [hfind]
    rfl

/-- **Keeping a component out of a new state in its text does so in the tag.** -/
theorem Ready.scopeOut_text (h : t.Ready) (hne : allStates ≠ [])
    (hfresh : ¬ state <:+: t.content) (hend : t.pieces = [] → t.Solid) (selfClosing : Bool) :
    editOr (scopeOut (.ofStart selfClosing) allStates state) (t.text selfClosing) =
      (t.scopedOut allStates state).text selfClosing := by
  rw [editOr, scopeOut, h.isSome_find?_iff rfl, h.isSome_find?_iff rfl, scopedOut]
  split
  · rfl
  · split
    · exact h.listed.tidy.extend_text h.listed.excludeFrom isWord_excludeFrom
        (fun p hp _ => not_mem_entries_of_fresh hfresh hp) (fun _ => true) selfClosing
    · have hinsert := h.listed.tidy.regular.insertRaw_text hend
        [.usual Word.includeIn (StateList.render allStates)] selfClosing
      rw [Option.getD_some, ← hinsert, insertAttribute, List.flatMap_singleton,
        WrittenPiece.source_usual]

/-- **The component can be edited again.** -/
theorem Ready.successor_scopedOut (h : t.Ready) (hstates : ∀ s ∈ allStates, isStateName s = true)
    (hstate : isStateName state = true) : Successor t (t.scopedOut allStates state) := by
  rw [scopedOut]
  split
  · exact h.successor
  · next hincluded =>
    split
    · refine h.successor_rewrite fun p hp value hvalue => ?_
      rcases extend_eq_some hvalue with rfl | ⟨hname, rfl⟩
      · exact Or.inl rfl
      · refine Or.inr (Quiet.render (forall_mem_concat (fun part hpart => ?_)
          (quiet_of_isStateName hstate)))
        have hready := h.piece hp
        exact (hready.quiet (hready.list (by rw [hname]; rfl))).of_part hpart
    · refine h.successor_append isWord_includeIn.nonempty isWord_includeIn.chars ?_
        (Quiet.render fun e he => quiet_of_isStateName (hstates e he))
      exact not_mem_of_value? (by simpa using hincluded)

/-! ## Its lists -/

theorem value?_append_of_ne {p : WrittenPiece} {word : Text} (h : p.name ≠ word) :
    (t.append [p]).value? word = t.value? word := by
  rw [value?, value?, append, List.find?_append, List.find?_cons_of_neg (by simpa using h),
    List.find?_nil, Option.or_none]

theorem value?_append_self {p : WrittenPiece} (h : t.value? p.name = none) :
    (t.append [p]).value? p.name = some p.value := by
  rw [value?, Option.map_eq_none_iff] at h
  rw [value?, append, List.find?_append, h, List.find?_cons_of_pos (by simp)]
  rfl

end StartTag

/-- The lists of a component before and after it was kept out of a state. -/
inductive ScopedOut (allStates : List Text) (state : Text) :
    (includeIn excludeFrom includeIn' excludeFrom' : Option Text) → Prop where
  /-- It lists the states it appears in already. -/
  | listed (included : Text) (excluded : Option Text) :
    ScopedOut allStates state (some included) excluded (some included) excluded
  /-- It is missing from one more state. -/
  | excluded (excluded : Text) :
    ScopedOut allStates state none (some excluded) none
      (some (StateList.render (StateList.entries excluded ++ [state])))
  /-- It appears in all other states. -/
  | included : ScopedOut allStates state none none (some (StateList.render allStates)) none

section

variable {t : StartTag} {allStates : List Text} {state : Text} {d : Dialect} {m m' : Membership}

theorem StartTag.scopedOut_lists (t : StartTag) (allStates : List Text) (state : Text) :
    ScopedOut allStates state (t.value? Word.includeIn) (t.value? Word.excludeFrom)
      ((t.scopedOut allStates state).value? Word.includeIn)
      ((t.scopedOut allStates state).value? Word.excludeFrom) := by
  have hextend : ∀ word, (t.rewrite (.extend Word.excludeFrom state fun _ => true)).value? word =
      (t.value? word).map fun value => if word = Word.excludeFrom ∧ true = true then
        StateList.render (StateList.entries value ++ [state]) else value :=
    fun word => StartTag.value?_rewrite_map (fun _ _ => rfl) word t
  unfold StartTag.scopedOut
  cases hincluded : t.value? Word.includeIn with
  | some included =>
    rw [Option.isSome_some, if_pos rfl, hincluded]
    exact .listed included _
  | none =>
    rw [Option.isSome_none, if_neg (by decide)]
    cases hexcluded : t.value? Word.excludeFrom with
    | some excluded =>
      rw [Option.isSome_some, if_pos rfl, hextend, hextend, hincluded, hexcluded]
      exact .excluded excluded
    | none =>
      have hself := StartTag.value?_append_self
        (p := .usual Word.includeIn (StateList.render allStates)) hincluded
      have hne : (WrittenPiece.usual Word.includeIn (StateList.render allStates)).name ≠
          Word.excludeFrom := fun heq => by cases heq
      have hother := StartTag.value?_append_of_ne (t := t) hne
      rw [Option.isSome_none, if_neg (by decide), hother, hexcluded]
      exact hself ▸ .included

variable (h : ScopedOut allStates state m.includeIn m.excludeFrom m'.includeIn m'.excludeFrom)
  (hname : m'.localName = m.localName) (hstates : ∀ s ∈ allStates, isStateName s = true)
  (hstate : isStateName state = true)

include h hname hstates hstate

/-- **A component that was kept out of a state cannot be seen in it.** -/
theorem ScopedOut.visibleIn_eq_false (hskin : m.localName ≠ d.skin)
    (hfresh : ¬ state <:+: m.localName) (hnot : state ∉ allStates)
    (hincludeIn : ∀ value ∈ m.includeIn, state ∉ StateList.entries value) :
    m'.visibleIn d state = false := by
  rw [Membership.visibleIn, hname, if_neg hskin]
  cases hcut : cutAt '.' m.localName with
  | some parts =>
    have hparts : cutAt '.' m.localName = some (parts.1, parts.2) := hcut
    have hpart : parts.2 <:+: m.localName := by
      rw [cutAt_eq_some hparts]
      exact ⟨parts.1 ++ ['.'], [], by simp⟩
    refine beq_eq_false_iff_ne.mpr fun heq => hfresh ?_
    rw [← heq]
    exact hpart
  | none =>
    obtain ⟨name, includeIn, excludeFrom⟩ := m
    obtain ⟨name', includeIn', excludeFrom'⟩ := m'
    cases h with
    | listed included excluded => simpa using hincludeIn included rfl
    | excluded excluded => simp [StateList.entries_concat hstate]
    | included =>
      simp [StateList.entries_render fun s hs => isEntry_of_isStateName (hstates s hs), hnot]

/-- **In every other state it is seen as before.** -/
theorem ScopedOut.visibleIn_eq {other : Text} (hmem : other ∈ allStates) (hother : other ≠ state) :
    m'.visibleIn d other = m.visibleIn d other := by
  rw [Membership.visibleIn, Membership.visibleIn, hname]
  split
  · rfl
  · split
    · rfl
    · obtain ⟨name, includeIn, excludeFrom⟩ := m
      obtain ⟨name', includeIn', excludeFrom'⟩ := m'
      cases h with
      | listed included excluded => rfl
      | excluded excluded => simp [StateList.entries_concat hstate, hother]
      | included =>
        simp [StateList.entries_render fun s hs => isEntry_of_isStateName (hstates s hs), hmem]

end

end SkinMarkup
