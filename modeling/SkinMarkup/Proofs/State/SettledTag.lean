import SkinMarkup.Proofs.State.Enrolled

/-!
# Start tags in which nothing is left to do

A tag is settled for a state if its lists have the state as far as they are to have it and
it has the attributes of the state (`StartTag.Settled`). A tag in which a state was copied
is settled (`settled_enrolledCopy`), also after the state went into the root's list
(`Settled.enrolledRoot`), and copying the state into a settled tag changes nothing
(`Settled.enrolledCopy_eq`). So copying a state once more changes nothing, and the same
holds for a component that is kept out of a state (`enrolledBlank_enrolledBlank`) and for
the root's list (`enrolledRoot_enrolledRoot`).
-/

namespace SkinMarkup

/-- The last part of a dotted name tells which name it is. -/
theorem eq_of_dotted {stem stem' a b : Text} (ha : '.' ∉ a) (hb : '.' ∉ b)
    (h : stem ++ '.' :: a = stem' ++ '.' :: b) : stem = stem' ∧ a = b := by
  rcases List.append_eq_append_iff.mp h with ⟨c, rfl, hc⟩ | ⟨c, rfl, hc⟩
  · cases c with
    | nil => simpa using hc
    | cons d ds =>
      obtain ⟨rfl, rfl⟩ := List.cons.inj hc
      exact absurd (by simp) ha
  · cases c with
    | nil => simpa using hc.symm
    | cons d ds =>
      obtain ⟨rfl, rfl⟩ := List.cons.inj hc
      exact absurd (by simp) hb

/-- An attribute for one state is none for another. -/
theorem stemFor?_dotted {model state stem stem' : Text} (hmodel : '.' ∉ model) (hstate : '.' ∉ state)
    (h : stemFor? model (stem' ++ '.' :: state) = some stem) : stem' = stem ∧ state = model :=
  eq_of_dotted hstate hmodel (mem_of_stemFor? h).1

theorem dot_of_isStateName {name : Text} (h : isStateName name = true) : '.' ∉ name :=
  not_mem_of_isStateName h rfl

namespace StartTag

variable {t t' : StartTag} {name state model : Text} {condition : List Text → Bool}
  {allStates : List Text}

/-! ## Lists -/

/-- Nothing is to be added to the list `name`: the tag has no such list, the list has the
state, or the condition does not hold of it. -/
def Full (name state : Text) (condition : List Text → Bool) (t : StartTag) : Prop :=
  ∀ value ∈ t.value? name, state ∈ StateList.entries value ∨ condition (StateList.entries value) = false

theorem Full.of_value? (h : t.Full name state condition) (hvalue : t'.value? name = t.value? name) :
    t'.Full name state condition := by
  rw [Full, hvalue]
  exact h

theorem Full.enlisted_eq (h : t.Full name state condition) : t.enlisted name state condition = t := by
  rw [enlisted]
  split
  · rfl
  · next value hvalue =>
    rw [if_pos]
    rcases h value hvalue with hmem | hfalse
    · simp [hmem]
    · simp [hfalse]

/-- **A list that was extended is not extended again.** -/
theorem full_enlisted (hstate : isStateName state = true) (name : Text)
    (condition : List Text → Bool) (t : StartTag) :
    (t.enlisted name state condition).Full name state condition := by
  intro value hvalue
  rw [value?_enlisted_self] at hvalue
  obtain ⟨old, -, rfl⟩ := Option.map_eq_some_iff.mp hvalue
  split
  · next hfull => simpa using hfull
  · exact Or.inl (by rw [StateList.entries_concat hstate]; simp)

/-! ## A copied state -/

/-- A start tag that has all that a state gets from its model. -/
structure Settled (model state : Text) (t : StartTag) : Prop where
  base : model = [] → t.Full Word.excludeFrom state fun _ => true
  lists : model ≠ [] → ∀ word ∈ [Word.excludeFrom, Word.includeIn],
    t.Full word state (·.contains model)
  copies : model ≠ [] → ∀ p ∈ t.pieces, ∀ stem ∈ stemFor? model p.name,
    stem ++ '.' :: state ∈ t.pieces.map (·.name)

/-- **Nothing is copied into a settled tag.** -/
theorem Settled.enrolledCopy_eq (h : t.Settled model state) : t.enrolledCopy model state = t := by
  rw [enrolledCopy]
  split
  · next hmodel => exact (h.base hmodel).enlisted_eq
  · next hmodel =>
    have hnone : t.missingCopies model state = [] := by
      refine List.filter_eq_nil_iff.mpr fun q hq => ?_
      obtain ⟨p, hp, stem, hne, hname, rfl⟩ := mem_copies hq
      have hstem : stemFor? model p.name = some stem := by rw [hname, stemFor?_append hne]
      obtain ⟨x, hx, hsame⟩ := List.mem_map.mp (h.copies hmodel p hp stem hstem)
      simpa using ⟨x, hx, hsame⟩
    dsimp only
    rw [(h.lists hmodel Word.excludeFrom (by simp)).enlisted_eq,
      (h.lists hmodel Word.includeIn (by simp)).enlisted_eq, hnone, append, List.append_nil]

/-- The copies of a tag are there when the missing ones were added. -/
theorem mem_names_append_missing (hmodel : '.' ∉ model) (hstate : '.' ∉ state) {p : WrittenPiece}
    {stem : Text} (hp : p ∈ (t.append (t.missingCopies model state)).pieces)
    (hstem : stemFor? model p.name = some stem) :
    stem ++ '.' :: state ∈ (t.append (t.missingCopies model state)).pieces.map (·.name) := by
  rcases List.mem_append.mp hp with hold | hnew
  · rw [append, List.map_append, List.mem_append, Decidable.or_iff_not_imp_left]
    intro hmissing
    have hcopy : { p with lead := [' '], name := stem ++ '.' :: state, assign := ['='] } ∈
        t.copies model state :=
      List.mem_filterMap.mpr ⟨p, hold, by rw [WrittenPiece.copy?, hstem]; rfl⟩
    refine List.mem_map.mpr ⟨_, List.mem_filter.mpr ⟨hcopy, ?_⟩, rfl⟩
    simpa using hmissing
  · obtain ⟨x, -, stem', -, -, rfl⟩ := mem_copies (List.mem_filter.mp hnew).1
    -- A copy of the model for itself.
    obtain ⟨rfl, rfl⟩ := stemFor?_dotted hmodel hstate hstem
    exact List.mem_map_of_mem hp

/-- **A tag in which a state was copied is settled.** -/
theorem settled_enrolledCopy (hstate : isStateName state = true)
    (hmodel : model ≠ [] → isStateName model = true) (t : StartTag) :
    (t.enrolledCopy model state).Settled model state := by
  rw [enrolledCopy]
  split
  · next hnil =>
    exact ⟨fun _ => full_enlisted hstate _ _ t, fun hne => absurd hnil hne,
      fun hne => absurd hnil hne⟩
  · next hne =>
    refine ⟨fun hnil => absurd hnil hne, fun _ word hword => ?_, fun _ p hp stem hstem =>
      mem_names_append_missing (dot_of_isStateName (hmodel hne)) (dot_of_isStateName hstate) hp hstem⟩
    have hother : Word.excludeFrom ≠ Word.includeIn := by decide
    rcases List.mem_pair.mp hword with rfl | rfl
    · refine (full_enlisted hstate Word.excludeFrom (·.contains model) t).of_value? ?_
      rw [value?_append_missing isWord_excludeFrom, value?_enlisted_of_ne hother]
    · exact (full_enlisted hstate Word.includeIn (·.contains model) _).of_value?
        (value?_append_missing isWord_includeIn)

/-! ## The list on the root -/

theorem mem_entries_declaredValue (hstate : isStateName state = true) (list : Option Text) :
    state ∈ StateList.entries (declaredValue state list) := by
  cases list with
  | none =>
    rw [declaredValue, StateList.entries_of_isStateName hstate]
    exact List.mem_singleton_self state
  | some value =>
    rw [declaredValue]
    split
    · next hmem => exact List.contains_iff_mem.mp hmem
    · rw [StateList.entries_concat hstate]
      simp

theorem full_enrolledRoot (hstate : isStateName state = true) (t : StartTag) :
    (t.enrolledRoot state).Full Word.states state fun _ => true := by
  intro value hvalue
  cases hvalue.symm.trans (value?_enrolledRoot state t)
  exact Or.inl (mem_entries_declaredValue hstate _)

/-- **A state is declared once.** -/
theorem enrolledRoot_enrolledRoot (hstate : isStateName state = true) (t : StartTag) :
    (t.enrolledRoot state).enrolledRoot state = t.enrolledRoot state := by
  have hsome : ((t.enrolledRoot state).value? Word.states).isSome = true := by
    rw [value?_enrolledRoot]
    rfl
  rw [enrolledRoot, if_pos hsome, (full_enrolledRoot hstate t).enlisted_eq]

theorem value?_enrolledRoot_of_ne {word : Text} (hword : word ≠ Word.states) (state : Text)
    (t : StartTag) : (t.enrolledRoot state).value? word = t.value? word := by
  rw [enrolledRoot]
  split
  · exact value?_enlisted_of_ne hword state _ t
  · exact value?_append_of_ne fun heq => hword heq.symm

/-- **The list on the root does not matter to copies.** -/
theorem Settled.enrolledRoot (h : t.Settled model state) : (t.enrolledRoot state).Settled model state := by
  have hnames : ∀ other, other ∈ (t.enrolledRoot state).pieces.map (·.name) →
      other ∈ t.pieces.map (·.name) ∨ other = Word.states := by
    intro other
    rw [StartTag.enrolledRoot]
    split
    · rw [names_enlisted]
      exact Or.inl
    · rw [append, List.map_append, List.mem_append]
      exact Or.imp id fun hmem => List.mem_singleton.mp hmem
  have hsub : t.pieces.map (·.name) ⊆ (t.enrolledRoot state).pieces.map (·.name) := by
    rw [StartTag.enrolledRoot]
    split
    · rw [names_enlisted]
      exact List.Subset.refl _
    · rw [append, List.map_append]
      exact List.subset_append_left _ _
  refine ⟨fun hnil => (h.base hnil).of_value? (value?_enrolledRoot_of_ne (by decide) state t),
    fun hne word hword => (h.lists hne word hword).of_value? (value?_enrolledRoot_of_ne ?_ state t),
    fun hne p hp stem hstem => ?_⟩
  · rcases List.mem_pair.mp hword with rfl | rfl <;> decide
  · rcases hnames p.name (List.mem_map_of_mem hp) with hold | hstates
    · obtain ⟨x, hx, heq⟩ := List.mem_map.mp hold
      exact hsub (h.copies hne x hx stem (by rw [heq]; exact hstem))
    · rw [hstates, stemFor?_of_dot isWord_states.dot] at hstem
      cases hstem

/-! ## A blank state -/

/-- **A component is kept out of a state once.** -/
theorem enrolledBlank_enrolledBlank (hstate : isStateName state = true) (allStates : List Text)
    (t : StartTag) :
    (t.enrolledBlank allStates state).enrolledBlank allStates state =
      t.enrolledBlank allStates state := by
  cases hincluded : (t.value? Word.includeIn).isSome with
  | true =>
    have hself : t.enrolledBlank allStates state = t := if_pos hincluded
    rw [hself, hself]
  | false =>
    cases hexcluded : (t.value? Word.excludeFrom).isSome with
    | true =>
      have hself : t.enrolledBlank allStates state = t.enlisted Word.excludeFrom state fun _ => true := by
        rw [enrolledBlank, hincluded, hexcluded]
        rfl
      have hfull := full_enlisted hstate Word.excludeFrom (fun _ => true) t
      have hinclude : ((t.enlisted Word.excludeFrom state fun _ => true).value?
          Word.includeIn).isSome = false := by
        rw [value?_enlisted_of_ne (by decide), hincluded]
      have hexclude : ((t.enlisted Word.excludeFrom state fun _ => true).value?
          Word.excludeFrom).isSome = true := by
        rw [value?_enlisted_self, Option.isSome_map, hexcluded]
      rw [hself, enrolledBlank, hinclude, hexclude, hfull.enlisted_eq]
      rfl
    | false =>
      by_cases hnil : allStates = []
      · have hself : t.enrolledBlank allStates state = t := by
          rw [enrolledBlank, hincluded, hexcluded, if_pos hnil]
          rfl
        rw [hself, hself]
      · have hself : t.enrolledBlank allStates state =
            t.append [.usual Word.includeIn (StateList.render allStates)] := by
          rw [enrolledBlank, hincluded, hexcluded, if_neg hnil]
          rfl
        have hlist := value?_append_self (p := .usual Word.includeIn (StateList.render allStates))
          (by simpa using hincluded : t.value? Word.includeIn = none)
        have hinclude : ((t.append [.usual Word.includeIn (StateList.render allStates)]).value?
            Word.includeIn).isSome = true := by
          rw [Option.isSome_iff_exists]
          exact ⟨_, hlist⟩
        rw [hself, enrolledBlank, if_pos hinclude]

end StartTag

end SkinMarkup
