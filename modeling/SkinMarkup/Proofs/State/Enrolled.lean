import SkinMarkup.Proofs.State.BlankTag

/-!
# Start tags with one more state

A new state goes into lists of states and gets attributes of its own. Whether or not
its name is in the document already, a start tag can be edited again afterwards, and
the attributes that have nothing to do with the state are as they were:
`StartTag.Enrolled`. This holds for a copied state (`enrolledCopy`) and for a blank one
(`enrolledBlank`). The list on the root is extended by the state (`enrolledRoot`). The
edits of a tag's text come to these (`Ready.copyTag_text`, `Ready.enrolledBlank_text`,
`Ready.enrolledRoot_text`).
-/

namespace SkinMarkup

/-- Whether an attribute can change when a state is created: it is a list of states
or applies to that state alone. -/
def Word.concerns (state name : Text) : Bool :=
  Word.lists.contains name || (stemFor? state name).isSome

theorem Word.concerns_of_mem {name : Text} (h : name ∈ Word.lists) (state : Text) :
    Word.concerns state name = true := by
  rw [concerns, List.contains_iff_mem.mpr h]
  rfl

theorem Word.mem_lists_of_isStateList {name : Text} (h : Word.isStateList name = true) :
    name ∈ Word.lists := by
  rw [isStateList, Bool.or_eq_true, beq_iff_eq, beq_iff_eq] at h
  rcases h with rfl | rfl <;> simp [lists]

theorem Word.concerns_append {stem : Text} (hne : stem ≠ []) (state : Text) :
    Word.concerns state (stem ++ '.' :: state) = true := by
  rw [concerns, stemFor?_append hne, Option.isSome_some, Bool.or_true]

theorem WrittenPiece.Ready.copy {p : WrittenPiece} {state model : Text} (h : p.Ready)
    (hstate : isStateName state = true)
    {stem : Text} (hne : stem ≠ []) (hname : p.name = stem ++ '.' :: model) :
    WrittenPiece.Ready { p with lead := [' '], name := stem ++ '.' :: state, assign := ['='] } := by
  have hchars : NameChars (stem ++ '.' :: state) := by
    intro c hc
    rcases List.mem_append.mp hc with hc | hc
    · exact h.name c (hname ▸ List.mem_append_left _ hc)
    · rcases List.mem_cons.mp hc with rfl | hc
      · decide
      · exact nameChars_of_isStateName hstate c hc
  have hback := h.backslash
  simp only [StartTag.mem_source, not_or] at hback
  refine ⟨⟨h.regular.skipped, ?_, isSafeName_of_nameChars (by simp) hchars, ⟨[], [], rfl, ?_, ?_⟩,
    h.regular.quoted⟩, hchars, List.cons_ne_nil _ _, ?_, h.readable, h.avoids, ?_⟩
  · intro c hc
    rw [List.mem_singleton.mp hc]
    rfl
  · rintro c ⟨⟩
  · rintro c ⟨⟩
  · simp only [StartTag.mem_source, not_or]
    refine ⟨hback.1, by decide, ?_, by decide, hback.2.2.2.2⟩
    intro hmem
    exact ne_of_isNameChar (hchars _ hmem) (by decide) rfl
  · intro hlist
    have hnone : stemFor? state (stem ++ '.' :: state) = none := stemFor?_of_isStateList hlist
    rw [stemFor?_append hne] at hnone
    cases hnone

namespace StartTag

variable {t t' t'' : StartTag} {state model name value : Text} {allStates : List Text}
  {selfClosing : Bool}

/-- The attributes that have nothing to do with a state. -/
def unconcerned (state : Text) (t : StartTag) : List WrittenPiece :=
  t.pieces.filter fun p => !Word.concerns state p.name

/-- A start tag after an edit for a new state. -/
structure Enrolled (state : Text) (t t' : StartTag) : Prop where
  successor : Successor t t'
  unconcerned : t'.unconcerned state = t.unconcerned state
  states : t'.value? Word.states = t.value? Word.states
  nonempty : t'.pieces = [] → t.pieces = []

theorem Ready.enrolled (h : t.Ready) (state : Text) : Enrolled state t t :=
  ⟨h.successor, rfl, rfl, id⟩

theorem Enrolled.trans (h : Enrolled state t t') (h' : Enrolled state t' t'') :
    Enrolled state t t'' :=
  ⟨h.successor.trans h'.successor, h'.unconcerned.trans h.unconcerned, h'.states.trans h.states,
    fun hnil => h.nonempty (h'.nonempty hnil)⟩

theorem unconcerned_append {pieces : List WrittenPiece}
    (h : ∀ p ∈ pieces, Word.concerns state p.name = true) :
    (t.append pieces).unconcerned state = t.unconcerned state := by
  have hnone : pieces.filter (fun p => !Word.concerns state p.name) = [] := by
    refine List.filter_eq_nil_iff.mpr ?_
    intro p hp
    simp [h p hp]
  rw [StartTag.unconcerned, append, List.filter_append, hnone, List.append_nil]
  rfl

/-! ## Lists -/

theorem pieces_set (name value : Text) (t : StartTag) :
    (t.rewrite (.set name value)).pieces =
      t.pieces.map fun p => { p with value := if p.name = name then value else p.value } := by
  rw [rewrite, ← List.filterMap_eq_map]
  rfl

/-- Setting a value that concerns a state leaves the others as they are. -/
theorem unconcerned_set (hname : Word.concerns state name = true) (value : Text) (t : StartTag) :
    (t.rewrite (.set name value)).unconcerned state = t.unconcerned state := by
  rw [StartTag.unconcerned, StartTag.unconcerned, pieces_set]
  induction t.pieces with
  | nil => rfl
  | cons p pieces ih =>
    rw [List.map_cons]
    by_cases hp : p.name = name
    · have hconcerns : Word.concerns state p.name = true := hp ▸ hname
      rw [List.filter_cons_of_neg (by simp [hconcerns]),
        List.filter_cons_of_neg (by simp [hconcerns]), ih]
    · have hsame : { p with value := if p.name = name then value else p.value } = p := by
        rw [if_neg hp]
      rw [hsame, List.filter_cons, List.filter_cons, ih]

theorem value?_set_of_ne {word : Text} (hword : word ≠ name) (value : Text) (t : StartTag) :
    (t.rewrite (.set name value)).value? word = t.value? word := by
  rw [value?_rewrite_map (f := .set name value)
    (g := fun other old => if other = name then value else old) (fun _ _ => rfl)]
  cases t.value? word with
  | none => rfl
  | some old => simp [hword]

theorem value?_set_self (hvalue : (t.value? name).isSome = true) (value : Text) :
    (t.rewrite (.set name value)).value? name = some value := by
  rw [value?_rewrite_map (f := .set name value)
    (g := fun other old => if other = name then value else old) (fun _ _ => rfl)]
  obtain ⟨old, hold⟩ := Option.isSome_iff_exists.mp hvalue
  rw [hold]
  simp

theorem Ready.successor_set (h : t.Ready) (hvalue : Quiet value) (name : Text) :
    Successor t (t.rewrite (.set name value)) := by
  refine h.successor_rewrite fun p _ value' hvalue' => ?_
  rw [ValueEdit.set, Option.some.injEq] at hvalue'
  split at hvalue'
  · exact Or.inr (hvalue' ▸ hvalue)
  · exact Or.inl hvalue'.symm

/-- A list with one more state is a proper value. -/
theorem Ready.quiet_concat (h : t.Ready) (hstate : isStateName state = true)
    (hvalue : t.value? name = some value) (hlist : isListText value = true) :
    Quiet (StateList.render (StateList.entries value ++ [state])) := by
  obtain ⟨l, p, r, hsplit, -, rfl⟩ := exists_split hvalue
  have hquiet := (h.piece (mem_of_split hsplit).1).quiet hlist
  exact Quiet.render (forall_mem_concat (fun _ => hquiet.of_part) (quiet_of_isStateName hstate))

theorem Ready.clear (h : t.Ready) (hname : Word.isStateList name = true) : t.Clear name := by
  rw [Word.isStateList, Bool.or_eq_true, beq_iff_eq, beq_iff_eq] at hname
  rcases hname with rfl | rfl
  · exact h.listed.includeIn
  · exact h.listed.excludeFrom

theorem Ready.isListText_of_value? (h : t.Ready) (hname : Word.isStateList name = true)
    (hvalue : t.value? name = some value) : isListText value = true := by
  obtain ⟨l, p, r, hsplit, rfl, rfl⟩ := exists_split hvalue
  exact (h.piece (mem_of_split hsplit).1).list hname

/-- What extending a list in a tag's text comes to. -/
theorem Tidy.extend_text_cases (h : t.Tidy) (hclear : t.Clear name) (hname : IsWord name)
    (condition : List Text → Bool) (state : Text) (selfClosing : Bool) :
    (t.value? name = none ∧
        StateList.extend name state condition (t.text selfClosing) = none) ∨
      ∃ value, t.value? name = some value ∧
        StateList.extend name state condition (t.text selfClosing) =
          if (StateList.entries value).contains state || !condition (StateList.entries value) then none
          else some ((t.rewrite (.set name
            (StateList.render (StateList.entries value ++ [state])))).text selfClosing) := by
  cases hvalue : t.value? name with
  | none =>
    refine Or.inl ⟨rfl, ?_⟩
    rw [StateList.extend,
      h.find?_of_value?_eq_none hclear hname.nonempty hname.chars hvalue selfClosing]
    rfl
  | some value =>
    obtain ⟨slot, hfind, hslot, hreplace, -⟩ := h.exists_slot hclear hvalue selfClosing
    refine Or.inr ⟨value, rfl, ?_⟩
    rw [StateList.extend, hfind]
    simp only [Option.bind_eq_bind, Option.bind_some, hslot, hreplace]

/-- The start tag with a state added to the list `name`, if it has one without the state
and the condition holds of it. -/
def enlisted (name state : Text) (condition : List Text → Bool) (t : StartTag) : StartTag :=
  match t.value? name with
  | none => t
  | some value =>
    if (StateList.entries value).contains state || !condition (StateList.entries value) then t
    else t.rewrite (.set name (StateList.render (StateList.entries value ++ [state])))

theorem Tidy.enlisted_text (h : t.Tidy) (hclear : t.Clear name) (hname : IsWord name)
    (condition : List Text → Bool) (state : Text) (selfClosing : Bool) :
    editOr (StateList.extend name state condition) (t.text selfClosing) =
      (t.enlisted name state condition).text selfClosing := by
  rcases h.extend_text_cases hclear hname condition state selfClosing with
    ⟨hvalue, hextend⟩ | ⟨value, hvalue, hextend⟩
  · simp [editOr, hextend, enlisted, hvalue]
  · rw [editOr, hextend, enlisted, hvalue]
    dsimp only
    split <;> rfl

/-- What a list is that is extended or not. -/
theorem value?_enlisted_self (name state : Text) (condition : List Text → Bool) (t : StartTag) :
    (t.enlisted name state condition).value? name = (t.value? name).map fun value =>
      if (StateList.entries value).contains state || !condition (StateList.entries value) then value
      else StateList.render (StateList.entries value ++ [state]) := by
  cases hvalue : t.value? name with
  | none => simp [enlisted, hvalue]
  | some value =>
    rw [enlisted, hvalue, Option.map_some]
    dsimp only
    split
    · exact hvalue
    · exact value?_set_self (by rw [hvalue]; rfl) _

theorem value?_enlisted_of_ne {word : Text} (hword : word ≠ name) (state : Text)
    (condition : List Text → Bool) (t : StartTag) :
    (t.enlisted name state condition).value? word = t.value? word := by
  rw [enlisted]
  split
  · rfl
  · split
    · rfl
    · exact value?_set_of_ne hword _ t

theorem names_set (name value : Text) (t : StartTag) :
    (t.rewrite (.set name value)).pieces.map (·.name) = t.pieces.map (·.name) := by
  rw [pieces_set, List.map_map]
  rfl

theorem names_enlisted (name state : Text) (condition : List Text → Bool) (t : StartTag) :
    (t.enlisted name state condition).pieces.map (·.name) = t.pieces.map (·.name) := by
  rw [enlisted]
  split
  · rfl
  · split
    · rfl
    · exact names_set name _ t

/-- **A list that is extended or not leaves a start tag that can be edited.** -/
theorem Ready.enrolled_enlisted (h : t.Ready) (hname : Word.isStateList name = true)
    (hstate : isStateName state = true) (condition : List Text → Bool) :
    Enrolled state t (t.enlisted name state condition) := by
  have hne : Word.states ≠ name := by
    rintro rfl
    cases hname
  have hnonempty : (t.enlisted name state condition).pieces = [] → t.pieces = [] := by
    intro hnil
    have hnames := names_enlisted name state condition t
    rw [hnil] at hnames
    exact List.map_eq_nil_iff.mp hnames.symm
  refine ⟨?_, ?_, value?_enlisted_of_ne hne state condition t, hnonempty⟩
  · cases hvalue : t.value? name with
    | none => simpa [enlisted, hvalue] using h.successor
    | some value =>
      rw [enlisted, hvalue]
      dsimp only
      split
      · exact h.successor
      · exact h.successor_set (h.quiet_concat hstate hvalue (h.isListText_of_value? hname hvalue)) name
  · rw [enlisted]
    split
    · rfl
    · split
      · rfl
      · exact unconcerned_set (Word.concerns_of_mem (Word.mem_lists_of_isStateList hname) state) _ t

theorem Ready.enlisted_text (h : t.Ready) (hname : Word.isStateList name = true)
    (condition : List Text → Bool) (state : Text) (selfClosing : Bool) :
    editOr (StateList.extend name state condition) (t.text selfClosing) =
      (t.enlisted name state condition).text selfClosing :=
  h.listed.tidy.enlisted_text (h.clear hname) (isWord_of_isStateList hname) condition state
    selfClosing

/-! ## Attributes of a copy -/

/-- An attribute that is not for one state alone is not copied. -/
theorem value?_append_missing {word : Text} (hword : IsWord word) :
    (t.append (t.missingCopies model state)).value? word = t.value? word := by
  have hnone : (t.missingCopies model state).find? (·.name = word) = none := by
    rw [List.find?_eq_none]
    intro q hq hname
    obtain ⟨p, -, stem, -, -, rfl⟩ := mem_copies (List.mem_filter.mp hq).1
    exact hword.dot (by simp [← of_decide_eq_true hname])
  rw [value?, value?, append, List.find?_append, hnone, Option.or_none]

/-- **Copying attributes in a tag's text copies them in the tag.** -/
theorem Ready.copyAttributes_text (h : t.Ready) (model state : Text) (selfClosing : Bool) :
    copyAttributes (.ofStart selfClosing) model state (t.text selfClosing) =
      (t.append (t.missingCopies model state)).text selfClosing := by
  have htidy := h.listed.tidy
  have hadded : copiedAttributes model state (TagText.ofText (t.text selfClosing)).pieces =
      (t.missingCopies model state).flatMap WrittenPiece.source := by
    rw [htidy.ofText_text]
    exact copiedAttributes_eq_missing (fun p hp => ⟨(htidy.regular.pieces p hp).skipped,
      (htidy.regular.pieces p hp).quoted.imp fun _ h => h.1⟩) model state
  rw [copyAttributes, hadded]
  split
  · next hnil =>
    rw [missingCopies_eq_nil hnil, append, List.append_nil]
  · next hne =>
    refine htidy.regular.insertRaw_text (fun hpieces => ?_) _ selfClosing
    rw [missingCopies, copies, hpieces] at hne
    exact absurd rfl hne

/-- **Copying attributes leaves a start tag that can be edited.** -/
theorem Ready.enrolled_copies (h : t.Ready) (hstate : isStateName state = true) (model : Text) :
    Enrolled state t (t.append (t.missingCopies model state)) := by
  have htidy := h.listed.tidy
  have hconcerns : ∀ q ∈ t.missingCopies model state, Word.concerns state q.name = true := by
    intro q hq
    obtain ⟨p, -, stem, hstem, -, rfl⟩ := mem_copies (List.mem_filter.mp hq).1
    exact Word.concerns_append hstem state
  refine ⟨h.successor_of_pieces ?_ ?_ ?_, unconcerned_append hconcerns,
    value?_append_missing isWord_states, fun hnil => (List.append_eq_nil_iff.mp hnil).1⟩
  · intro q hq
    rcases List.mem_append.mp hq with hq | hq
    · exact h.piece hq
    · obtain ⟨p, hp, stem, hstem, hname, rfl⟩ := mem_copies (List.mem_filter.mp hq).1
      exact (h.piece hp).copy hstate hstem hname
  · exact nodup_append_missing htidy.regular.nodup model state
  · intro hdeclaring q hq hname
    rcases List.mem_append.mp hq with hq | hq
    · exact hdeclaring q hq hname
    · obtain ⟨p, -, stem, -, -, rfl⟩ := mem_copies (List.mem_filter.mp hq).1
      exact absurd (by simp [← hname]) isWord_states.dot

/-! ## Whole start tags -/

/-- The start tag in which a state copies another one, as far as it does not yet. -/
def enrolledCopy (model state : Text) (t : StartTag) : StartTag :=
  if model = [] then
    t.enlisted Word.excludeFrom state fun _ => true
  else
    let listed := (t.enlisted Word.excludeFrom state (·.contains model)).enlisted Word.includeIn
      state (·.contains model)
    listed.append (listed.missingCopies model state)

/-- **A start tag in which a state was copied can be edited.** -/
theorem Ready.enrolled_enrolledCopy (h : t.Ready) (hstate : isStateName state = true) (model : Text) :
    Enrolled state t (t.enrolledCopy model state) := by
  rw [enrolledCopy]
  split
  · exact h.enrolled_enlisted rfl hstate _
  · have hexclude : Enrolled state t (t.enlisted Word.excludeFrom state (·.contains model)) :=
      h.enrolled_enlisted rfl hstate _
    have hinclude := hexclude.successor.ready.enrolled_enlisted
      (rfl : Word.isStateList Word.includeIn = true) hstate (·.contains model)
    exact hexclude.trans (hinclude.trans (hinclude.successor.ready.enrolled_copies hstate model))

/-- **Copying a state in a tag's text copies it in the tag.** -/
theorem Ready.copyTag_text (h : t.Ready) (hstate : isStateName state = true) (model : Text)
    (selfClosing : Bool) :
    copyTag (.ofStart selfClosing) model state (t.text selfClosing) =
      (t.enrolledCopy model state).text selfClosing := by
  rw [copyTag, enrolledCopy]
  split
  · exact h.enlisted_text rfl _ state selfClosing
  · have hexclude : (t.enlisted Word.excludeFrom state (·.contains model)).Ready :=
      (h.enrolled_enlisted rfl hstate _).successor.ready
    have hinclude := (hexclude.enrolled_enlisted (rfl : Word.isStateList Word.includeIn = true)
      hstate (·.contains model)).successor.ready
    rw [h.enlisted_text rfl]
    dsimp only
    rw [hexclude.enlisted_text rfl, hinclude.copyAttributes_text]

theorem Ready.enrolled_append (h : t.Ready) (hname : Word.isStateList name = true)
    (hnew : t.value? name = none) (hvalue : Quiet value) (state : Text) :
    Enrolled state t (t.append [.usual name value]) := by
  have hword := isWord_of_isStateList hname
  have hne : (WrittenPiece.usual name value).name ≠ Word.states := by
    rintro heq
    have : name = Word.states := heq
    rw [this] at hname
    cases hname
  refine ⟨h.successor_append hword.nonempty hword.chars (not_mem_of_value? hnew) hvalue,
    unconcerned_append ?_, value?_append_of_ne hne, fun hnil => (List.append_eq_nil_iff.mp hnil).1⟩
  intro p hp
  rw [List.mem_singleton.mp hp]
  exact Word.concerns_of_mem (Word.mem_lists_of_isStateList hname) state

/-- The start tag of a component that is kept out of a state, as far as it is not yet. -/
def enrolledBlank (allStates : List Text) (state : Text) (t : StartTag) : StartTag :=
  if (t.value? Word.includeIn).isSome then t
  else if (t.value? Word.excludeFrom).isSome then
    t.enlisted Word.excludeFrom state fun _ => true
  else if allStates = [] then t
  else t.append [.usual Word.includeIn (StateList.render allStates)]

/-- **A component that was kept out of a state can be edited.** -/
theorem Ready.enrolled_enrolledBlank (h : t.Ready) (hstate : isStateName state = true)
    (hstates : ∀ s ∈ allStates, Quiet s) : Enrolled state t (t.enrolledBlank allStates state) := by
  rw [enrolledBlank]
  split
  · exact h.enrolled state
  · next hincluded =>
    split
    · exact h.enrolled_enlisted rfl hstate _
    · split
      · exact h.enrolled state
      · exact h.enrolled_append rfl (by simpa using hincluded) (Quiet.render hstates) state

/-- **Keeping a component out of a state in a tag's text does so in the tag.** -/
theorem Ready.enrolledBlank_text (h : t.Ready) (allStates : List Text) (state : Text)
    (hend : allStates ≠ [] → t.pieces = [] → t.Solid) (selfClosing : Bool) :
    editOr (scopeOut (.ofStart selfClosing) allStates state) (t.text selfClosing) =
      (t.enrolledBlank allStates state).text selfClosing := by
  rw [editOr, scopeOut, h.isSome_find?_iff rfl, h.isSome_find?_iff rfl, enrolledBlank]
  split
  · rfl
  · split
    · exact h.enlisted_text rfl _ state selfClosing
    · split
      · rfl
      · next hne =>
        rw [← h.listed.tidy.regular.insertRaw_text (hend hne), List.flatMap_singleton,
          WrittenPiece.source_usual]
        rfl

/-! ## The list on the root -/

/-- The value of a root's list of states when a state was declared. -/
def declaredValue (state : Text) : Option Text → Text
  | none => state
  | some value =>
    if (StateList.entries value).contains state then value
    else StateList.render (StateList.entries value ++ [state])

/-- The start tag of a root on which a state is declared, as far as it is not yet. -/
def enrolledRoot (state : Text) (t : StartTag) : StartTag :=
  if (t.value? Word.states).isSome then
    t.enlisted Word.states state fun _ => true
  else t.append [.usual Word.states state]

theorem value?_enrolledRoot (state : Text) (t : StartTag) :
    (t.enrolledRoot state).value? Word.states =
      some (declaredValue state (t.value? Word.states)) := by
  rw [enrolledRoot]
  cases hvalue : t.value? Word.states with
  | none => exact value?_append_self (p := .usual Word.states state) hvalue
  | some value =>
    rw [Option.isSome_some, if_pos rfl, value?_enlisted_self, hvalue]
    simp [declaredValue]

/-- **A root on which a state was declared can be edited.** -/
theorem Ready.successor_enrolledRoot (h : t.Ready) (hdeclaring : t.Declaring)
    (hstate : isStateName state = true) :
    Successor t (t.enrolledRoot state) ∧
      (t.enrolledRoot state).unconcerned state = t.unconcerned state := by
  have hconcerns : Word.concerns state Word.states = true :=
    Word.concerns_of_mem (by simp [Word.lists]) state
  rw [enrolledRoot]
  cases hvalue : t.value? Word.states with
  | none =>
    rw [Option.isSome_none, if_neg (by decide)]
    refine ⟨h.successor_append isWord_states.nonempty isWord_states.chars (not_mem_of_value? hvalue)
      (quiet_of_isStateName hstate), unconcerned_append fun p hp => ?_⟩
    rw [List.mem_singleton.mp hp]
    exact hconcerns
  | some value =>
    rw [Option.isSome_some, if_pos rfl, enlisted, hvalue]
    dsimp only
    split
    · exact ⟨h.successor, rfl⟩
    · obtain ⟨l, p, r, hsplit, hname, rfl⟩ := exists_split hvalue
      have hlist : isListText p.value = true := hdeclaring p (mem_of_split hsplit).1 hname
      exact ⟨h.successor_set (h.quiet_concat hstate hvalue hlist) _, unconcerned_set hconcerns _ t⟩

/-- **Declaring a state in a tag's text declares it in the tag.** -/
theorem Ready.enrolledRoot_text (h : t.Ready) (hdeclaring : t.Declaring)
    (hend : t.pieces = [] → t.Solid) (state : Text) (selfClosing : Bool) :
    (match ValueSlot.find? Word.states (t.text selfClosing) with
        | some _ => some ((StateList.extend Word.states state (fun _ => true)
            (t.text selfClosing)).getD (t.text selfClosing))
        | none => some (insertAttribute (.ofStart selfClosing) Word.states state
            (t.text selfClosing))) = some ((t.enrolledRoot state).text selfClosing) := by
  have htidy := h.listed.tidy
  have hclear := h.clear_states hdeclaring
  rw [enrolledRoot]
  cases hvalue : t.value? Word.states with
  | none =>
    rw [htidy.find?_of_value?_eq_none hclear isWord_states.nonempty isWord_states.chars hvalue,
      Option.isSome_none, if_neg (by decide), ← htidy.regular.insertRaw_text hend,
      List.flatMap_singleton, WrittenPiece.source_usual]
    rfl
  | some value =>
    obtain ⟨slot, hfind, -⟩ := htidy.exists_slot hclear hvalue selfClosing
    rw [hfind, Option.isSome_some, if_pos rfl, ← htidy.enlisted_text hclear isWord_states]
    rfl

end StartTag

end SkinMarkup
