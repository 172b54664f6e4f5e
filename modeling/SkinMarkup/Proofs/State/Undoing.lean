import SkinMarkup.Proofs.State.RestoredTag

/-!
# Removing a copy

A copy of a state that is removed again leaves the text as it was:
`removeState_createState`. Revising the markup once to copy the state and once
more to remove the copy restores each start tag that is revised, and the text
between the tags is kept both times (`source_restored`).
-/

namespace SkinMarkup

namespace Markup

variable {w : Markup} {d : Dialect} {model state : Text} {allStates : List Text}

/-! ## Events of revised markup -/

section

variable {σ : Type} {judge : σ → Bool → Text → σ × Verdict} {memory : σ} {gap raw : Text}
  {selfClosing : Bool} {content : Text}

theorem events_text {event : Event} (h : event ∈ (text raw w).events) (hkind : event.isText = false) :
    event ∈ w.events := by
  unfold text at h
  split at h
  · exact h
  · refine (List.mem_cons.mp h).resolve_left ?_
    rintro rfl
    cases hkind

theorem isText_start (selfClosing : Bool) (content : Text) :
    (Event.start selfClosing content).isText = false := by
  cases selfClosing <;> rfl

/-- Whether a start tag is in markup, or is written by a revision of it. -/
def Comes (judge : σ → Bool → Text → σ × Verdict) (selfClosing : Bool) (content : Text)
    (w : Markup) : Prop :=
  Event.start selfClosing content ∈ w.events ∨
    ∃ memory old, Event.start selfClosing old ∈ w.events ∧
      (judge memory selfClosing old).2 = .write content

theorem Comes.mono {w' : Markup} (h : w.Comes judge selfClosing content)
    (hsub : w.events ⊆ w'.events) : w'.Comes judge selfClosing content :=
  h.imp (fun h => hsub h) fun ⟨memory, old, hold, hjudge⟩ => ⟨memory, old, hsub hold, hjudge⟩

/-- In the place of an element stands the start tag that was there, or a new one. -/
theorem Comes.of_head {other : Bool} {old : Text} (memory : σ)
    (hmem : Event.start other old ∈ w.events)
    (heq : Event.start selfClosing content =
      Event.start other ((judge memory other old).2.content old)) :
    w.Comes judge selfClosing content := by
  have hboth : selfClosing = other ∧ content = (judge memory other old).2.content old := by
    cases selfClosing <;> cases other <;> cases heq <;> exact ⟨rfl, rfl⟩
  obtain ⟨rfl, rfl⟩ := hboth
  cases hverdict : (judge memory selfClosing old).2 with
  | write new => exact Or.inr ⟨memory, old, hmem, hverdict⟩
  | pass => exact Or.inl hmem
  | erase => exact Or.inl hmem

theorem mem_events_revise_empty {event : Event} {old : Text} {rest : Markup}
    (h : event ∈ ((empty old rest).revise judge memory gap).2.events)
    (hkind : event.isText = false) :
    event = .empty ((judge memory true old).2.content old) ∨
      ∃ memory' gap', event ∈ (rest.revise judge memory' gap').2.events := by
  cases hverdict : (judge memory true old).2 with
  | write new =>
    rw [revise_empty_of_write (Prod.ext rfl hverdict)] at h
    exact (List.mem_cons.mp (events_text h hkind)).imp_right fun h => ⟨_, _, h⟩
  | pass =>
    rw [revise_empty_of_pass (Prod.ext rfl hverdict)] at h
    exact (List.mem_cons.mp (events_text h hkind)).imp_right fun h => ⟨_, _, h⟩
  | erase =>
    rw [revise_empty_of_erase (Prod.ext rfl hverdict)] at h
    exact Or.inr ⟨_, _, h⟩

theorem mem_events_revise_node {event : Event} {old close : Text} {inside rest : Markup}
    (h : event ∈ ((node old inside close rest).revise judge memory gap).2.events)
    (hkind : event.isText = false) :
    event = .opening ((judge memory false old).2.content old) ∨ event = .closing close ∨
      event ∈ inside.events ∨
      (∃ memory' gap', event ∈ (inside.revise judge memory' gap').2.events) ∨
      ∃ memory' gap', event ∈ (rest.revise judge memory' gap').2.events := by
  cases hverdict : (judge memory false old).2 with
  | write new =>
    rw [revise_node_of_write (Prod.ext rfl hverdict)] at h
    have h := events_text h hkind
    simp only [events, List.mem_cons, List.mem_append] at h
    rcases h with heq | h | heq | h
    · exact Or.inl heq
    · exact Or.inr (Or.inr (Or.inr (Or.inl ⟨_, _, h⟩)))
    · exact Or.inr (Or.inl heq)
    · exact Or.inr (Or.inr (Or.inr (Or.inr ⟨_, _, h⟩)))
  | pass =>
    rw [revise_node_of_pass (Prod.ext rfl hverdict)] at h
    have h := events_text h hkind
    simp only [events, List.mem_cons, List.mem_append] at h
    rcases h with heq | h | heq | h
    · exact Or.inl heq
    · exact Or.inr (Or.inr (Or.inl h))
    · exact Or.inr (Or.inl heq)
    · exact Or.inr (Or.inr (Or.inr (Or.inr ⟨_, _, h⟩)))
  | erase =>
    rw [revise_node_of_erase (Prod.ext rfl hverdict)] at h
    exact Or.inr (Or.inr (Or.inr (Or.inr ⟨_, _, h⟩)))

/-- **A start tag of revised markup was there before, or it was written.** -/
theorem comes_of_mem_events
    (h : Event.start selfClosing content ∈ (w.revise judge memory gap).2.events) :
    w.Comes judge selfClosing content := by
  have hstart := isText_start selfClosing content
  induction w generalizing memory gap with
  | nil => cases events_text h hstart
  | inert event hinert rest ih =>
    cases htext : event.isText with
    | true =>
      rw [revise_text hinert htext] at h
      exact (ih h).mono events_behind_inert
    | false =>
      rw [revise_inert hinert htext] at h
      rcases List.mem_cons.mp (events_text h hstart) with heq | h
      · exact Or.inl (heq ▸ List.mem_cons_self)
      · exact (ih h).mono events_behind_inert
  | empty old rest ih =>
    have hmem : Event.start true old ∈ (empty old rest).events := List.mem_cons_self
    rcases mem_events_revise_empty h hstart with heq | ⟨_, _, h⟩
    · exact .of_head memory hmem heq
    · exact (ih h).mono events_behind_empty
  | node old inside close rest ihinside ih =>
    have hmem : Event.start false old ∈ (node old inside close rest).events := List.mem_cons_self
    rcases mem_events_revise_node h hstart with heq | heq | h | ⟨_, _, h⟩ | ⟨_, _, h⟩
    · exact .of_head memory hmem heq
    · cases selfClosing <;> cases heq
    · exact Or.inl (events_inside_node h)
    · exact (ihinside h).mono events_inside_node
    · exact (ih h).mono events_behind_node

end

theorem mem_events_of_setFirst {selfClosing other : Bool} {content content' old : Text}
    (hfirst : w.first? = some (other, old))
    (h : Event.start selfClosing content ∈ (w.setFirst content').events) :
    Event.start selfClosing content ∈ w.events ∨ content = content' := by
  induction w with
  | nil => cases hfirst
  | inert event hinert rest ih =>
    rcases List.mem_cons.mp h with heq | h
    · exact Or.inl (heq ▸ List.mem_cons_self)
    · exact (ih hfirst h).imp_left (List.mem_cons_of_mem event)
  | empty old rest ih =>
    rcases List.mem_cons.mp h with heq | h
    · cases selfClosing with
      | false => cases heq
      | true =>
        cases heq
        exact Or.inr rfl
    · exact Or.inl (List.mem_cons_of_mem _ h)
  | node old inside close rest ihinside ih =>
    rcases List.mem_cons.mp h with heq | h
    · cases selfClosing with
      | true => cases heq
      | false =>
        cases heq
        exact Or.inr rfl
    · exact Or.inl (List.mem_cons_of_mem _ h)

/-! ## One revision after the other -/

theorem revise_pending {σ : Type} {judge : σ → Bool → Text → σ × Verdict} (memory : σ)
    (gap raw : Text) (rest : Markup) :
    (text raw rest).revise judge memory gap = rest.revise judge memory (gap ++ raw) := by
  unfold text
  split
  · next hnil => rw [hnil, List.append_nil]
  · exact revise_text _ rfl

/-- Whether a start tag with a copied state is restored without it. -/
def Restores (d : Dialect) (model state : Text) (allStates : List Text) (content : Text) : Prop :=
  ∀ selfClosing, removeJudge d state allStates false selfClosing (copyContent model state content) =
    (false, .write content)

theorem removeJudge_of_isBlock {content : Text} (h : d.isBlock content = true)
    (met selfClosing : Bool) :
    removeJudge d state allStates met selfClosing content = (met, .pass) := by
  rw [removeJudge, if_pos h]

theorem copyJudge_of_isBlock {content : Text} (h : d.isBlock content = true) (selfClosing : Bool) :
    copyJudge d model state () selfClosing content = ((), .pass) := by
  rw [copyJudge, if_pos h]

theorem copyJudge_of_not_isBlock {content : Text} (h : d.isBlock content = false)
    (selfClosing : Bool) : copyJudge d model state () selfClosing content =
      ((), .write (copyContent model state content)) := by
  rw [copyJudge, if_neg (by simp [h])]

/-- Whether this holds of the start tags outside the blocks of declarations. -/
def RestoresAll (d : Dialect) (model state : Text) (allStates : List Text) (level : Nat)
    (w : Markup) : Prop :=
  ∀ p ∈ w.spots d everything false level, p.inside = false →
    Restores d model state allStates p.element

namespace RestoresAll

variable {level : Nat} {content close : Text} {inside rest : Markup}

theorem behind_empty (h : RestoresAll d model state allStates level (empty content rest)) :
    RestoresAll d model state allStates level rest :=
  fun p hp => h p (List.mem_append_right _ hp)

theorem behind_node (h : RestoresAll d model state allStates level (node content inside close rest)) :
    RestoresAll d model state allStates level rest :=
  fun p hp => h p (List.mem_append_right _ hp)

theorem own_empty (h : RestoresAll d model state allStates level (empty content rest))
    (hblock : d.isBlock content = false) : Restores d model state allStates content :=
  h ⟨level, false, content⟩ (by simp [spots, everything, hblock]) rfl

theorem own_node (h : RestoresAll d model state allStates level (node content inside close rest))
    (hblock : d.isBlock content = false) : Restores d model state allStates content :=
  h ⟨level, false, content⟩ (by simp [spots, everything, hblock]) rfl

theorem inside_node (h : RestoresAll d model state allStates level (node content inside close rest))
    (hblock : d.isBlock content = false) : RestoresAll d model state allStates (level + 1) inside :=
  fun p hp => h p (by simp [spots, everything, hblock, hp])

end RestoresAll

/-- **Copying a state and removing the copy keeps the text of markup.** -/
theorem source_restored {level : Nat} (h : RestoresAll d model state allStates level w)
    (gap gap' : Text) :
    ((w.revise (copyJudge d model state) () gap).2.revise (removeJudge d state allStates) false gap').1 =
        false ∧
      ((w.revise (copyJudge d model state) () gap).2.revise
        (removeJudge d state allStates) false gap').2.source = gap' ++ (gap ++ w.source) := by
  induction w generalizing level gap gap' with
  | nil =>
    rw [revise, revise_pending, revise]
    simp
  | inert event hinert rest ih =>
    cases htext : event.isText with
    | true =>
      obtain ⟨hmemory, hsource⟩ := ih h (gap ++ event.source) gap'
      rw [revise_text hinert htext]
      exact ⟨hmemory, by simp [hsource]⟩
    | false =>
      obtain ⟨hmemory, hsource⟩ := ih h [] []
      rw [revise_inert hinert htext, revise_pending, revise_inert hinert htext]
      exact ⟨hmemory, by simp [hsource]⟩
  | empty content rest ih =>
    obtain ⟨hmemory, hsource⟩ := ih h.behind_empty [] []
    cases hblock : d.isBlock content with
    | true =>
      rw [revise_empty_of_pass (copyJudge_of_isBlock hblock true), revise_pending,
        revise_empty_of_pass (removeJudge_of_isBlock hblock false true)]
      exact ⟨hmemory, by simp [hsource]⟩
    | false =>
      rw [revise_empty_of_write (copyJudge_of_not_isBlock hblock true), revise_pending,
        revise_empty_of_write (h.own_empty hblock true)]
      exact ⟨hmemory, by simp [hsource]⟩
  | node content inside close rest ihinside ih =>
    obtain ⟨hmemory, hsource⟩ := ih h.behind_node [] []
    cases hblock : d.isBlock content with
    | true =>
      rw [revise_node_of_pass (copyJudge_of_isBlock hblock false), revise_pending,
        revise_node_of_pass (removeJudge_of_isBlock hblock false false)]
      exact ⟨hmemory, by simp [hsource]⟩
    | false =>
      obtain ⟨hmemory₁, hsource₁⟩ := ihinside (h.inside_node hblock) [] []
      rw [revise_node_of_write (copyJudge_of_not_isBlock hblock false), revise_pending,
        revise_node_of_write (h.own_node hblock false), hmemory₁]
      exact ⟨hmemory, by simp [hsource, hsource₁]⟩

theorem setFirst_text (content raw : Text) (rest : Markup) :
    (text raw rest).setFirst content = text raw (rest.setFirst content) := by
  unfold text
  split <;> rfl

/-- The same with another start tag `new` of the root, which becomes `restored`. -/
theorem source_restored_root {selfClosing : Bool} {content new restored : Text} {level : Nat}
    (hfirst : w.first? = some (selfClosing, content))
    (hroot : d.isBlock content = true ∧ d.isBlock new = true ∧ restored = new ∨
      d.isBlock content = false ∧
        removeJudge d state allStates false selfClosing new = (false, .write restored))
    (h : RestoresAll d model state allStates level w) (gap gap' : Text) :
    (((w.revise (copyJudge d model state) () gap).2.setFirst new).revise
      (removeJudge d state allStates) false gap').2.source =
        gap' ++ (gap ++ (w.setFirst restored).source) := by
  induction w generalizing gap gap' with
  | nil => cases hfirst
  | inert event hinert rest ih =>
    cases htext : event.isText with
    | true =>
      rw [revise_text hinert htext, ih hfirst h]
      simp [setFirst]
    | false =>
      rw [revise_inert hinert htext, setFirst_text, revise_pending, setFirst,
        revise_inert hinert htext]
      simp [setFirst, ih hfirst h]
  | empty content rest ih =>
    cases hfirst
    obtain ⟨-, hsource⟩ := source_restored h.behind_empty [] []
    rcases hroot with ⟨hblock, hnew, rfl⟩ | ⟨hblock, hjudge⟩
    · rw [revise_empty_of_pass (copyJudge_of_isBlock hblock true), setFirst_text, revise_pending,
        setFirst, revise_empty_of_pass (removeJudge_of_isBlock hnew false true)]
      simp [setFirst, hsource]
    · rw [revise_empty_of_write (copyJudge_of_not_isBlock hblock true), setFirst_text,
        revise_pending, setFirst, revise_empty_of_write hjudge]
      simp [setFirst, hsource]
  | node content inside close rest ihinside ih =>
    cases hfirst
    obtain ⟨-, hsource⟩ := source_restored h.behind_node [] []
    rcases hroot with ⟨hblock, hnew, rfl⟩ | ⟨hblock, hjudge⟩
    · rw [revise_node_of_pass (copyJudge_of_isBlock hblock false), setFirst_text, revise_pending,
        setFirst, revise_node_of_pass (removeJudge_of_isBlock hnew false false)]
      simp [setFirst, hsource]
    · obtain ⟨hmemory₁, hsource₁⟩ := source_restored (h.inside_node hblock) [] []
      rw [revise_node_of_write (copyJudge_of_not_isBlock hblock false), setFirst_text,
        revise_pending, setFirst, revise_node_of_write hjudge, hmemory₁]
      simp [setFirst, hsource, hsource₁]

/-! ## Start tags of the copy -/

section

variable {st : StartTag} (hstate : isStateName state = true) (hmodel : model ∈ allStates)

include hstate hmodel

omit hstate in
theorem not_states_of_mem (name : Text) :
    ¬ (name = d.states ∧ (allStates ++ [state]).length ≤ 1) := by
  rintro ⟨-, hlength⟩
  have hpositive := List.length_pos_of_mem hmodel
  rw [List.length_append, List.length_singleton] at hlength
  omega

/-- **A start tag that was copied is restored.** -/
theorem restores_of_normal (h : st.Listed) (hfresh : ¬ state <:+: st.content)
    (hnormal : st.Normal model) (hblock : d.isBlock st.content = false) :
    Restores d model state (allStates ++ [state]) st.content := by
  intro selfClosing
  have htidy : (st.copied model state).Tidy := h.tidy_copied hstate hfresh
  have hsame : d.isBlock (st.copied model state).content = false := by
    rw [← hblock, htidy.regular.isBlock_content, h.tidy.regular.isBlock_content]
    rfl
  have hdeclares : declares d state selfClosing (st.copied model state).content = false := by
    rw [declares, StartTag.source_start, h.declaresState_copied hstate hfresh, Bool.and_false]
  rw [copyContent_content h.tidy, removeJudge, hsame, if_neg (by simp),
    if_neg (not_states_of_mem hmodel _), hdeclares, htidy.ofContent_content,
    StartTag.goes_copied hstate hfresh hmodel, StartTag.removed_copied hstate hfresh hnormal]
  simp

/-- The start tag of the root is restored, but for the list of states. -/
theorem removeJudge_declared {selfClosing : Bool} (h : st.Listed) (hclear : st.Clear Word.states)
    (hfresh : ¬ state <:+: st.content) (hnormal : st.Normal model)
    (hblock : d.isBlock st.content = false)
    (hdeclares : localOf st.name = d.state →
      declaresState state (((st.copied model state).declared state).text selfClosing) = false) :
    removeJudge d state (allStates ++ [state]) false selfClosing
        ((st.copied model state).declared state).content =
      (false, .write (st.declared state).content) := by
  have hstates : (st.copied model state).Clear Word.states :=
    h.clear_copied hstate isWord_states hclear
  have htidy : ((st.copied model state).declared state).Tidy :=
    (h.tidy_copied hstate hfresh).declared hstates hstate
  have hname : ((st.copied model state).declared state).name = st.name :=
    StartTag.name_declared state _
  have hsame : d.isBlock ((st.copied model state).declared state).content = false := by
    rw [← hblock, htidy.regular.isBlock_content, h.tidy.regular.isBlock_content, hname]
  have hno : declares d state selfClosing ((st.copied model state).declared state).content = false := by
    rw [declares, StartTag.source_start, htidy.regular.elementName_content, hname]
    cases hlocal : localOf st.name == d.state with
    | false => rfl
    | true => exact hdeclares (beq_iff_eq.mp hlocal)
  rw [removeJudge, hsame, if_neg (by simp), if_neg (not_states_of_mem hmodel _), hno,
    htidy.ofContent_content, StartTag.goes_declared, StartTag.goes_copied hstate hfresh hmodel,
    StartTag.removed_declared, StartTag.removed_copied hstate hfresh hnormal]
  simp

end

/-- Every start tag of a document with a copy can be removed from. -/
theorem removable_of_copied {selfClosing : Bool} {st : StartTag} (hready : w.Ready)
    (hstate : isStateName state = true) (hfresh : ¬ state <:+: w.source)
    (hfirst : w.first? = some (selfClosing, st.content)) (hst : st.Ready) (hroot : st.Root state)
    (d : Dialect) (model : Text) {other : Bool} {content : Text}
    (hmem : Event.start other content ∈ ((w.copied d model state).declared state).events) :
    ∃ st : StartTag, st.content = content ∧ st.Removable state := by
  obtain ⟨st', hfirst', hroot', hst'⟩ := exists_root_copied hstate hfresh hfirst hst hroot d model
  have hrootFresh := fresh_of_mem_events hfresh (mem_events_of_first hfirst)
  rw [declared_of_first hroot'.tidy hfirst'] at hmem
  rcases mem_events_of_setFirst hfirst' hmem with hmem | rfl
  · rcases comes_of_mem_events hmem with hold | ⟨memory, old, hold, hjudge⟩
    · obtain ⟨x, rfl, hx⟩ := hready other content hold
      exact ⟨x, rfl, hx.listed.removable_of_fresh (fresh_of_mem_events hfresh hold)⟩
    · obtain ⟨x, rfl, hx⟩ := hready other old hold
      rw [copyJudge] at hjudge
      dsimp only at hjudge
      split at hjudge
      · cases hjudge
      · cases hjudge
        exact ⟨x.copied model state, (copyContent_content hx.listed.tidy model state).symm,
          hx.listed.removable_copied hstate (fresh_of_mem_events hfresh hold)⟩
  · refine ⟨st'.declared state, rfl, ?_⟩
    cases hblock : d.isBlock st.content with
    | true =>
      rw [hblock, if_pos rfl] at hst'
      rw [hst']
      refine hst.listed.removable_declared hroot.clear hstate fun value hvalue hone => ?_
      obtain ⟨l, p, r, hsplit, -, rfl⟩ := StartTag.exists_split hvalue
      exact StartTag.not_mem_entries_of_fresh hrootFresh (StartTag.mem_of_split hsplit).1
        (hone ▸ List.mem_cons_self)
    | false =>
      rw [hblock, if_neg (by simp)] at hst'
      have hlisted : (st.copied model state).Listed :=
        (hst.listed.removable_copied hstate hrootFresh).toListed
      rw [hst'] at hroot' ⊢
      exact hlisted.removable_declared hroot'.clear hstate
        fun value hvalue => StartTag.ne_of_value?_copied hstate hrootFresh rfl hvalue

/-- What a list of an element's states says is read as it is written. -/
theorem mem_elementOf {st : StartTag} (h : st.Ready) {p : WrittenPiece} (hp : p ∈ st.pieces)
    (hlist : Word.isStateList p.name = true) : (p.name, p.value) ∈ (elementOf st.content).2 := by
  refine mem_of_valueIn? ?_
  rw [valueIn?_elementOf h.listed.tidy h.readable, h.listed.tidy.value?_of_mem hp, Option.bind_some,
    unescape_of_not_mem (h.plain p hp hlist)]
  rfl

end Markup

/-- A tree in which every list with a state is written as it is read, outside the
blocks of declarations, and so is the list of all states on the root. -/
structure Tag.InNormalForm (d : Dialect) (model : Text) (root : Tag) : Prop where
  lists : ∀ p ∈ root.spots d everything false 0, p.inside = false → ∀ e ∈ p.element.entries,
    Word.isStateList e.1 = true → model ∈ StateList.entries e.2 →
      StateList.render (StateList.entries e.2) = e.2
  states : ∀ value ∈ root.head.value? Word.states,
    StateList.entries value ≠ [] ∧ StateList.render (StateList.entries value) = value

instance (d : Dialect) (model : Text) (root : Tag) : Decidable (root.InNormalForm d model) :=
  decidable_of_iff
    (((root.spots d everything false 0).all fun p => p.inside || p.element.entries.all fun e =>
        !(Word.isStateList e.1 && (StateList.entries e.2).contains model) ||
          StateList.render (StateList.entries e.2) == e.2) = true ∧
      ((root.head.value? Word.states).all fun value => StateList.entries value != [] &&
        StateList.render (StateList.entries value) == value) = true) <| by
    constructor
    · rintro ⟨hlists, hstates⟩
      refine ⟨fun p hp hinside e he hlist hmem => ?_, fun value hvalue => ?_⟩
      · have hall := List.all_eq_true.mp hlists p hp
        rw [hinside, Bool.false_or] at hall
        simpa [hlist, hmem] using List.all_eq_true.mp hall e he
      · simpa [Option.mem_def.mp hvalue] using hstates
    · rintro ⟨hlists, hstates⟩
      refine ⟨List.all_eq_true.mpr fun p hp => ?_, ?_⟩
      · cases hinside : p.inside with
        | true => rfl
        | false =>
          refine List.all_eq_true.mpr fun e he => ?_
          have hown := hlists p hp hinside e he
          cases hlist : Word.isStateList e.1 with
          | false => rfl
          | true =>
            by_cases hmem : model ∈ StateList.entries e.2
            · simp [hown hlist hmem]
            · simp [hmem]
      · cases hvalue : root.head.value? Word.states with
        | none => rfl
        | some value => simpa using hstates value hvalue

section

variable {t model state : Text} {root : Tag} {w : Markup} {d : Dialect} {allStates : List Text}
  {selfClosing : Bool} {st : StartTag}

/-- The lists of a start tag outside the blocks of declarations are in normal
form. -/
theorem normal_of_inNormalForm (htags : w.tags [] = [root.bare])
    (hnormal : root.InNormalForm d model) {p : Spot Text} (hp : p ∈ w.spots d everything false 0)
    (hinside : p.inside = false) (hst : st.Ready) (hcontent : st.content = p.element) :
    st.Normal model := by
  -- The spot stands for a tag of the tree, whose lists are in normal form.
  have htree : p.map elementOf ∈ (root.spots d everything false 0).map (Spot.map Tag.element) := by
    rw [Markup.element_spots_of_tags respects_everything htags]
    exact List.mem_map_of_mem hp
  obtain ⟨x, hx, heq⟩ := List.mem_map.mp htree
  have hentries : x.element.entries = (elementOf p.element).2 :=
    congrArg Prod.snd (congrArg Spot.element heq)
  have hlists := hnormal.lists x hx ((congrArg Spot.inside heq).trans hinside)
  rw [hentries, ← hcontent] at hlists
  exact fun q hq hlist => hlists _ (Markup.mem_elementOf hst hq hlist) hlist

/-- Every start tag outside the blocks of declarations is restored. -/
theorem restores_of_inNormalForm (hready : w.Ready) (htags : w.tags [] = [root.bare])
    (hnormal : root.InNormalForm d model) (hstate : isStateName state = true)
    (hfresh : ¬ state <:+: w.source) (hmodel : model ∈ allStates) {p : Spot Text}
    (hp : p ∈ w.spots d everything false 0) (hinside : p.inside = false) :
    Markup.Restores d model state (allStates ++ [state]) p.element := by
  obtain ⟨selfClosing, hevent⟩ := Markup.mem_events_of_mem_spots hp
  obtain ⟨st, hcontent, hst⟩ := hready selfClosing p.element hevent
  have hown := Markup.fresh_of_mem_events hfresh hevent
  have hblock : d.isBlock p.element = false := by
    cases hblock : d.isBlock p.element with
    | false => rfl
    | true => cases hinside.symm.trans (Markup.inside_of_mem_spots hp hblock)
  have hlists := normal_of_inNormalForm htags hnormal hp hinside hst hcontent
  rw [← hcontent] at hown hblock ⊢
  exact Markup.restores_of_normal hstate hmodel hst.listed hown hlists hblock

/-- The first start tag is that of the root. -/
theorem localName_of_first (hst : st.Ready) (hfirst : w.first? = some (selfClosing, st.content))
    (htags : w.tags [] = [root.bare]) : root.localName = localOf st.name := by
  have hname : root.name = (elementOf st.content).1 :=
    congrArg Prod.fst (Markup.element_of_first hfirst htags)
  rw [elementOf, hst.listed.tidy.regular.elementName_content] at hname
  exact congrArg localOf hname

/-- The list of states on the root is read as it is written. -/
theorem value?_states_of_first (hroot : st.Root state)
    (hfirst : w.first? = some (selfClosing, st.content)) (htags : w.tags [] = [root.bare]) :
    root.head.value? Word.states = st.value? Word.states := by
  have hentries : root.entries = (elementOf st.content).2 :=
    congrArg Prod.snd (Markup.element_of_first hfirst htags)
  rw [Tag.value?_eq, hentries, Markup.valueIn?_elementOf hroot.tidy hroot.readable]
  cases hvalue : st.value? Word.states with
  | none => rfl
  | some value =>
    obtain ⟨l, p, r, hsplit, hname, rfl⟩ := StartTag.exists_split hvalue
    rw [Option.bind_some, unescape_of_not_mem (hroot.plain p (StartTag.mem_of_split hsplit).1 hname)]
    rfl

/-- Where no value of the root mentions a name, its start tag mentions none. -/
theorem avoids_name_of_first (hw : w.Document) (hst : st.Ready)
    (hfirst : w.first? = some (selfClosing, st.content))
    (h : ∀ token ∈ (startTokens w.source).head?, ∀ p ∈ token.pieces,
      containsWord Word.name p.value = false) :
    ∀ p ∈ st.pieces, Avoids Word.name p.value := by
  intro p hp
  obtain ⟨token, htokenMem, htoken⟩ := hw.exists_head hfirst
  have htidy := hst.listed.tidy
  have hpieces := htidy.regular.pieces_of_isToken htidy.name htidy.names htoken
  exact avoids_of_containsWord isWord_name.chars (h token htokenMem p (hpieces ▸ hp))

section

variable (hroot : st.Root state) (hstate : isStateName state = true)
  (hstates : ∀ value, st.value? Word.states = some value →
    StateList.entries value ≠ [] ∧ StateList.render (StateList.entries value) = value)

include hroot hstate hstates

/-- Removing the copy restores the start tag of the root, but for the list of
states. -/
theorem removeJudge_root {st' : StartTag} (hst : st.Ready) (hfresh : ¬ state <:+: st.content)
    (hmodel : model ∈ allStates) (hnormal : d.isBlock st.content = false → st.Normal model)
    (hname : localOf st.name = d.state → st.value? Word.states = none →
      ∀ p ∈ st.pieces, Avoids Word.name p.value)
    (hst' : st' = if d.isBlock st.content then st else st.copied model state) :
    d.isBlock st.content = true ∧ d.isBlock (st'.declared state).content = true ∧
        (st.declared state).content = (st'.declared state).content ∨
      d.isBlock st.content = false ∧
        Markup.removeJudge d state (allStates ++ [state]) false selfClosing
          (st'.declared state).content = (false, .write (st.declared state).content) := by
  cases hblock : d.isBlock st.content with
  | true =>
    rw [hblock, if_pos rfl] at hst'
    subst hst'
    refine Or.inl ⟨rfl, ?_, rfl⟩
    rw [← hblock, (hroot.tidy.declared hroot.clear hstate).regular.isBlock_content,
      hroot.tidy.regular.isBlock_content, StartTag.name_declared]
  | false =>
    rw [hblock, if_neg (by simp)] at hst'
    subst hst'
    refine Or.inr ⟨rfl, Markup.removeJudge_declared hstate hmodel hst.listed hroot.clear hfresh
      (hnormal hblock) hblock fun hlocal => ?_⟩
    cases hvalue : st.value? Word.states with
    | some value =>
      exact hst.listed.declaresState_of_states hstate hfresh hroot.clear hvalue
        (hstates value hvalue).1 selfClosing
    | none =>
      exact hst.listed.declaresState_of_avoids hstate hfresh hroot.clear hvalue
        (hname hlocal hvalue) selfClosing

/-- Dropping a state from the list that it was added to restores a document. -/
theorem Markup.Document.undeclareState_declared (hw : w.Document)
    (hfirst : w.first? = some (selfClosing, st.content)) :
    undeclareState state (w.setFirst (st.declared state).content).source = ⟨w.source, true⟩ := by
  have hdeclared := hw.declared hfirst hroot hstate
  rw [Markup.declared_of_first hroot.tidy hfirst] at hdeclared
  have hfirst' := Markup.first?_setFirst hfirst (st.declared state).content
  have htidy := hroot.tidy.declared hroot.clear hstate
  rw [hdeclared.undeclareState_source hfirst' htidy
    (hroot.clear.declared isWord_states hroot.clear hstate)
    (hroot.solid_declared hstate fun value hvalue => (hstates value hvalue).1),
    Markup.undeclared_of_first hfirst' htidy, Markup.setFirst_setFirst,
    hroot.shorten_declared hstate hstates, Markup.setFirst_eq_self hfirst]

end

/-- **A copy of a state that is removed again leaves the text as it was.** -/
theorem removeState_createState (h : Editable t root) (hdoctype : NoDoctype t)
    (hparse : parseStrict t = .ok root) (hmodel : isStateName model = true)
    (hmem : model ∈ allStates) (hstate : isStateName state = true) (hfresh : ¬ state <:+: t)
    (hnormal : root.InNormalForm d model)
    (hsolid : root.head.attributes = [] → root.name.getLast? ≠ some '\u1680')
    (hname : root.localName = d.state → root.head.value? Word.states = none →
      ∀ token ∈ (startTokens t).head?, ∀ p ∈ token.pieces, containsWord Word.name p.value = false) :
    let created := createState d allStates state (some model) t
    created.complete = true ∧
      removeState d state (allStates ++ [state]) created.text = ⟨t, true⟩ := by
  intro created
  obtain ⟨w, hsource, hw, htags⟩ := h.exists_markup hdoctype hparse
  have hready := h.ready hw hsource htags
  obtain ⟨selfClosing, st, hfirst, hst, hroot⟩ := h.exists_root hw hsource htags hsolid hfresh
  subst hsource
  have hcreate : created = ⟨((w.copied d model state).declared state).source, true⟩ :=
    Markup.createState_source hw hready hstate hfresh hfirst hst hroot
      (ne_nil_of_isStateName hmodel) allStates
  have hremove := Markup.removeText_source
    (Markup.document_copied hw hready hstate hfresh hfirst hst hroot d model)
    (fun _ _ hevent => Markup.removable_of_copied hready hstate hfresh hfirst hst hroot d model hevent)
    d (allStates ++ [state])
  -- The start tags are restored, each on its own; that of the root keeps the new state.
  have hstates : ∀ value, st.value? Word.states = some value →
      StateList.entries value ≠ [] ∧ StateList.render (StateList.entries value) = value := by
    rw [← value?_states_of_first hroot hfirst htags]
    exact hnormal.states
  have hlists : d.isBlock st.content = false → st.Normal model := by
    intro hblock
    obtain ⟨below, -, hspots⟩ := hw.single.exists_below hfirst d everything
    have hspot := hspots st.content rfl rfl
    rw [Markup.setFirst_eq_self hfirst, hblock] at hspot
    exact normal_of_inNormalForm htags hnormal (hspot ▸ List.mem_cons_self) rfl hst rfl
  have havoids : localOf st.name = d.state → st.value? Word.states = none →
      ∀ p ∈ st.pieces, Avoids Word.name p.value := by
    rw [← localName_of_first hst hfirst htags, ← value?_states_of_first hroot hfirst htags]
    exact fun hlocal hvalue => avoids_name_of_first hw hst hfirst (hname hlocal hvalue)
  obtain ⟨st', hfirst', hroot', hst'⟩ :=
    Markup.exists_root_copied hstate hfresh hfirst hst hroot d model
  have hrestored := Markup.source_restored_root hfirst
    (removeJudge_root hroot hstate hstates hst
      (Markup.fresh_of_mem_events hfresh (Markup.mem_events_of_first hfirst)) hmem hlists havoids hst')
    (fun p hp hinside =>
      restores_of_inNormalForm hready htags hnormal hstate hfresh hmem hp hinside) [] []
  rw [hcreate]
  refine ⟨rfl, ?_⟩
  rw [removeState, hremove, Markup.declared_of_first hroot'.tidy hfirst', Markup.copied, hrestored]
  exact hw.undeclareState_declared hroot hstate hstates hfirst

end

/-- A copy of `up` that is removed again, with lists in both quotes, an attribute
for `up`, and a list in a block of declarations that is not in normal form. -/
theorem removeState_createState_held :
    let t := "<e:Skin states = 'up,x'><a includeIn='up,x' y.up='&lt;'/>
      <Declarations includeIn=' up'/><b excludeFrom=\"up\" /></e:Skin>".toList
    let up := ['u', 'p']
    let held := ['h', 'e', 'l', 'd']
    let created := createState Dialect.standard [up] held (some up) t
    ∃ root, (Editable t root ∧ NoDoctype t ∧ parseStrict t = .ok root ∧ isStateName up = true ∧
        isStateName held = true ∧ ¬ held <:+: t ∧ root.InNormalForm Dialect.standard up ∧
        (root.head.attributes = [] → root.name.getLast? ≠ some '\u1680') ∧
        root.localName ≠ Dialect.standard.state) ∧
      created.complete = true ∧
      removeState Dialect.standard held ([up] ++ [held]) created.text = ⟨t, true⟩ := by
  intro t up held created
  have hup : isStateName up = true := by decide
  have hheld : isStateName held = true := by decide
  have hany : ((parseStrict t).toOption.any fun root => decide (Editable t root) &&
      decide (NoDoctype t) && decide (¬ held <:+: t) &&
      decide (root.InNormalForm Dialect.standard up) &&
      decide (root.head.attributes = [] → root.name.getLast? ≠ some '\u1680') &&
      decide (root.localName ≠ Dialect.standard.state)) = true := by
    decide +kernel
  obtain ⟨root, hparse, hproperties⟩ := exists_of_any_toOption hany
  simp only [Bool.and_eq_true, decide_eq_true_eq] at hproperties
  obtain ⟨⟨⟨⟨⟨heditable, hdoctype⟩, hfresh⟩, hnormal⟩, hsolid⟩, hlocal⟩ := hproperties
  exact ⟨root, ⟨heditable, hdoctype, hparse, hup, hheld, hfresh, hnormal, hsolid, hlocal⟩,
    removeState_createState heditable hdoctype hparse hup List.mem_cons_self hheld hfresh hnormal
      hsolid fun hstate => absurd hstate hlocal⟩

/-- What the hypotheses keep out. A document type declaration in lower case can
hide the root from the scan; a root that mentions a name is taken for a
declaration of the copy; a new list that goes before the blank at the end of a
name leaves a block of declarations. -/
theorem not_removeState_createState :
    let hidden := "<!doctype x <<a></b>>><r/>".toList
    let named := "<State b=' name '/>".toList
    let blank := "<Declarations\u1680><b x.a=''/></Declarations\u1680>".toList
    ∀ t ∈ [hidden, named, blank],
      (∃ root, parseStrict t = .ok root ∧ Editable t root ∧
        root.InNormalForm Dialect.standard ['a']) ∧
      containsWord "<!DOCTYPE".toList t = false ∧ isStateName ['a'] = true ∧
      isStateName ['q'] = true ∧ ¬ ['q'] <:+: t ∧
      (let created := createState Dialect.standard [['a']] ['q'] (some ['a']) t
      ¬ (created.complete = true ∧
        removeState Dialect.standard ['q'] ([['a']] ++ [['q']]) created.text = ⟨t, true⟩)) := by
  intro hidden named blank t ht
  have hall : ([hidden, named, blank].all fun t =>
      ((parseStrict t).toOption.any fun root =>
        decide (Editable t root) && decide (root.InNormalForm Dialect.standard ['a'])) &&
      !containsWord "<!DOCTYPE".toList t && decide (¬ ['q'] <:+: t) &&
      let created := createState Dialect.standard [['a']] ['q'] (some ['a']) t
      !(created.complete &&
        decide (removeState Dialect.standard ['q'] ([['a']] ++ [['q']]) created.text = ⟨t, true⟩))) =
        true := by
    decide +kernel
  have hown := List.all_eq_true.mp hall t ht
  simp only [Bool.and_eq_true, Bool.not_eq_true', decide_eq_true_eq] at hown
  obtain ⟨⟨⟨hparse, hdoctype⟩, hfresh⟩, hfails⟩ := hown
  obtain ⟨root, hparse, hproperties⟩ := exists_of_any_toOption hparse
  simp only [Bool.and_eq_true, decide_eq_true_eq] at hproperties
  refine ⟨⟨root, hparse, hproperties⟩, hdoctype, by decide, by decide, hfresh, ?_⟩
  simpa using hfails

end SkinMarkup
