import SkinMarkup.Proofs.State.DeclaredNames
import SkinMarkup.Proofs.State.RemovedMarkup
import SkinMarkup.Proofs.State.Successors

/-!
# Declarations of states

An element declares a state by its name. Where names are found as they are read
(`StartTag.Naming`), the search for a declaration finds the elements that are read
as one: `Ready.declares_eq`. Removing a state remembers whether its declaration was
met. It need not, if there is one at most: `revise_removeJudge`.
-/

namespace SkinMarkup

/-- Whether an element declares a state by its name. -/
def Dialect.declares (d : Dialect) (state : Text) (element : Text × List (Text × Text)) : Bool :=
  localOf element.1 == d.state &&
    (valueIn? Word.name element.2).any fun value => trim value == state

/-! ## Names of states -/

/-- The names in declarations of states are found where they are. -/
def NamesStates (d : Dialect) (t : Text) : Prop :=
  ∀ token ∈ startTokens t, token.localName = d.state → ∀ p ∈ token.pieces,
    containsWord Word.name p.value = false ∧ (p.name = Word.name → isListText p.value = true)

instance (d : Dialect) (t : Text) : Decidable (NamesStates d t) :=
  inferInstanceAs (Decidable (∀ token ∈ startTokens t, token.localName = d.state →
    ∀ p ∈ token.pieces,
      containsWord Word.name p.value = false ∧ (p.name = Word.name → isListText p.value = true)))

/-- A start tag whose name is found where it is, if it declares a state. -/
def StartTag.Naming (d : Dialect) (st : StartTag) : Prop :=
  localOf st.name = d.state → ∀ p ∈ st.pieces,
    Avoids Word.name p.value ∧ (p.name = Word.name → isListText p.value = true)

namespace Markup

variable {w : Markup} {d : Dialect} {state : Text} {allStates : List Text} {selfClosing : Bool}
  {st : StartTag}

theorem Document.naming (hw : w.Document) (hst : st.Ready) (h : NamesStates d w.source)
    (hmem : Event.start selfClosing st.content ∈ w.events) : st.Naming d := by
  intro hlocal p hp
  obtain ⟨token, htokenMem, htoken⟩ := hw.exists_token hmem
  have htidy := hst.listed.tidy
  have hpieces := htidy.regular.pieces_of_isToken htidy.name htidy.names htoken
  have hname := htidy.localName_of_isToken htoken
  rw [htidy.regular.elementName_content] at hname
  obtain ⟨havoids, hlist⟩ := h token htokenMem (hname.trans hlocal) p (hpieces ▸ hp)
  exact ⟨avoids_of_containsWord isWord_name.chars havoids, hlist⟩

/-- **A declaration is found where it is read.** -/
theorem declares_eq (hst : st.Ready) (hnaming : st.Naming d) (state : Text) (selfClosing : Bool) :
    declares d state selfClosing st.content = d.declares state (elementOf st.content) := by
  have htidy := hst.listed.tidy
  rw [declares, Dialect.declares, hst.elementOf_fst, htidy.regular.elementName_content,
    StartTag.source_start]
  by_cases hlocal : localOf st.name = d.state
  · have hnames := hnaming hlocal
    have hclear : st.Clear Word.name :=
      ⟨fun p hp => (hnames p hp).1, fun p hp hname => (isListText_iff.mp ((hnames p hp).2 hname)).2⟩
    have hplain : ∀ p ∈ st.pieces, p.name = Word.name → '&' ∉ p.value :=
      fun p hp hname => (isListText_iff.mp ((hnames p hp).2 hname)).1
    rw [hst.valueIn?_of_plain hplain, declaresState]
    cases hvalue : st.value? Word.name with
    | none =>
      rw [htidy.find?_of_value?_eq_none hclear isWord_name.nonempty isWord_name.chars hvalue]
      rfl
    | some value =>
      obtain ⟨slot, hfind, hslot, -⟩ := htidy.exists_slot hclear hvalue selfClosing
      rw [hfind, Option.any_some, Option.any_some, hslot]
  · have hneg : (localOf st.name == d.state) = false := by simpa using hlocal
    rw [hneg, Bool.false_and, Bool.false_and]

/-! ## One declaration -/

/-- The elements outside blocks of declarations that declare a state. -/
def declarations (d : Dialect) (state : Text) (inside : Bool) (level : Nat) (w : Markup) :
    List (Spot Text) :=
  (w.spots d everything inside level).filter fun p =>
    !p.inside && d.declares state (elementOf p.element)

/-- The declaration that an element is, if it is one. -/
def ownDeclaration (d : Dialect) (state : Text) (level : Nat) (content : Text) :
    List (Spot Text) :=
  if !d.isBlock content && d.declares state (elementOf content) then [⟨level, false, content⟩]
  else []

section

variable {level : Nat} {content close : Text} {within rest : Markup}

theorem declarations_empty :
    declarations d state false level (empty content rest) =
      ownDeclaration d state level content ++ declarations d state false level rest := by
  rw [declarations, spots, ownDeclaration, everything, if_pos rfl, List.filter_append, Bool.false_or,
    declarations]
  cases d.isBlock content <;> cases h : d.declares state (elementOf content) <;> simp [h]

theorem declarations_node :
    declarations d state false level (node content within close rest) =
      ownDeclaration d state level content ++
        (declarations d state (d.isBlock content) (level + 1) within ++
          declarations d state false level rest) := by
  rw [declarations, spots, ownDeclaration, everything, if_pos rfl, List.filter_append, Bool.false_or,
    declarations, declarations]
  cases d.isBlock content <;> cases h : d.declares state (elementOf content) <;> simp [h]

end

/-- Decides about an element when a state is removed, with no memory of
declarations. -/
def eachRemoveJudge (d : Dialect) (state : Text) (allStates : List Text) (_ : Unit)
    (selfClosing : Bool) (content : Text) : Unit × Verdict :=
  ((), (removeJudge d state allStates false selfClosing content).2)

section

variable {content : Text} {met : Bool}
  (hagree : declares d state selfClosing content = d.declares state (elementOf content))

include hagree

/-- An element that is no declaration is judged without regard to the memory. -/
theorem removeJudge_of_ownDeclaration_nil (allStates : List Text)
    (h : ownDeclaration d state level content = []) (met : Bool) :
    removeJudge d state allStates met selfClosing content =
      (met, (removeJudge d state allStates false selfClosing content).2) := by
  cases hblock : d.isBlock content with
  | true => rw [removeJudge, removeJudge, if_pos hblock, if_pos hblock]
  | false =>
    have hnone : declares d state selfClosing content = false := by
      rw [hagree]
      simpa [ownDeclaration, hblock] using h
    simp only [removeJudge, hblock, hnone, Bool.false_eq_true, if_false, Bool.and_false]
    split
    · rfl
    · split <;> rfl

/-- A declaration that is met first goes. -/
theorem removeJudge_of_ownDeclaration (allStates : List Text)
    (h : ownDeclaration d state level content ≠ []) :
    (removeJudge d state allStates false selfClosing content).2 = .erase := by
  have hown : d.isBlock content = false ∧ d.declares state (elementOf content) = true := by
    simpa [ownDeclaration] using h
  simp only [removeJudge, hown.1, hagree.trans hown.2, Bool.false_eq_true, if_false, Bool.not_false,
    Bool.true_and, if_true]
  split <;> rfl

end

/-- Whether markup becomes the same when declarations are remembered and when they
are not, and a declaration that is remembered was met. -/
def Forgetful (d : Dialect) (state : Text) (allStates : List Text) (level : Nat) (w : Markup) :
    Prop :=
  (declarations d state false level w).length ≤ 1 → ∀ met gap,
    (met = true → declarations d state false level w = []) →
      ∃ met', w.revise (removeJudge d state allStates) met gap =
          (met', (w.revise (eachRemoveJudge d state allStates) () gap).2) ∧
        (met' = true → met = true ∨ declarations d state false level w ≠ [])

section

variable {level : Nat} {content close : Text} {within rest : Markup}

/-- After one declaration there is no other one. -/
theorem nil_of_length_append {α : Type} {own others : List α} (hown : own ≠ [])
    (hone : (own ++ others).length ≤ 1) : others = [] := by
  have hpos := List.length_pos_iff.mpr hown
  rw [List.length_append] at hone
  exact List.length_eq_zero_iff.mp (by omega)

/-- Whether a declaration comes first does not matter where both judges leave the
same in front of the rest. -/
theorem Forgetful.of_rest (h : rest.Forgetful d state allStates level)
    (hsub : (declarations d state false level rest).Sublist (declarations d state false level w))
    (hsame : ∀ met gap, ∃ (gap' : Text) (front : Markup → Markup),
      w.revise (removeJudge d state allStates) met gap =
        ((rest.revise (removeJudge d state allStates) met gap').1,
          front (rest.revise (removeJudge d state allStates) met gap').2) ∧
      (w.revise (eachRemoveJudge d state allStates) () gap).2 =
        front (rest.revise (eachRemoveJudge d state allStates) () gap').2) :
    w.Forgetful d state allStates level := by
  intro hone met gap hmet
  have hnil : declarations d state false level w = [] → declarations d state false level rest = [] :=
    fun h => List.sublist_nil.mp (h ▸ hsub)
  obtain ⟨gap', front, hrevise, heach⟩ := hsame met gap
  obtain ⟨met', hrest, hmemory⟩ :=
    h (hsub.length_le.trans hone) met gap' fun hmet' => hnil (hmet hmet')
  refine ⟨met', ?_, fun hmet' => (hmemory hmet').imp_right (mt hnil)⟩
  rw [hrevise, heach, hrest]

/-- A declaration is the only one, so it was not met before, and none follows it. -/
theorem Forgetful.of_declaration (h : rest.Forgetful d state allStates level) {met₁ : Bool}
    {own others : List (Spot Text)} (hown : own ≠ [])
    (hdeclarations : declarations d state false level w = own ++ others)
    (hsub : (declarations d state false level rest).Sublist others)
    (hjudge : ∀ gap, w.revise (removeJudge d state allStates) false gap =
      rest.revise (removeJudge d state allStates) met₁ (trimEnd gap))
    (heach : ∀ gap, w.revise (eachRemoveJudge d state allStates) () gap =
      rest.revise (eachRemoveJudge d state allStates) () (trimEnd gap)) :
    w.Forgetful d state allStates level := by
  intro hone met gap hmet
  rw [hdeclarations] at hone hmet ⊢
  have hnot : met = false := by
    refine Bool.eq_false_iff.mpr fun hmet' => hown ?_
    exact (List.append_eq_nil_iff.mp (hmet hmet')).1
  have hnil : declarations d state false level rest = [] :=
    List.sublist_nil.mp (nil_of_length_append hown hone ▸ hsub)
  obtain ⟨met', hsame, -⟩ := h (by simp [hnil]) met₁ (trimEnd gap) fun _ => hnil
  refine ⟨met', ?_, fun _ => Or.inr (by simp [hown])⟩
  rw [hnot, hjudge, heach, hsame]

theorem forgetful_inert {event : Event} {hinert : event.elementKind? = none}
    (hrest : rest.Forgetful d state allStates level) :
    (inert event hinert rest).Forgetful d state allStates level := by
  refine hrest.of_rest (List.Sublist.refl _) fun met gap => ?_
  cases htext : event.isText with
  | true =>
    refine ⟨gap ++ event.source, id, ?_, ?_⟩ <;> rw [revise_text hinert htext] <;> rfl
  | false =>
    refine ⟨[], fun u => text gap (inert event hinert u), ?_, ?_⟩ <;> rw [revise_inert hinert htext]

theorem forgetful_empty
    (hagree : declares d state true content = d.declares state (elementOf content))
    (hrest : rest.Forgetful d state allStates level) :
    (empty content rest).Forgetful d state allStates level := by
  by_cases hown : ownDeclaration d state level content = []
  · -- The element is judged alike, whatever is remembered.
    have hsub : (declarations d state false level rest).Sublist
        (declarations d state false level (empty content rest)) := by
      rw [declarations_empty]
      exact List.sublist_append_right _ _
    refine hrest.of_rest hsub fun met gap => ?_
    have hjudge := removeJudge_of_ownDeclaration_nil hagree allStates hown met
    have heach : eachRemoveJudge d state allStates () true content =
      ((), (removeJudge d state allStates false true content).2) := rfl
    cases hverdict : (removeJudge d state allStates false true content).2 with
    | write content' =>
      rw [hverdict] at hjudge heach
      exact ⟨[], fun u => text gap (empty content' u), by rw [revise_empty_of_write hjudge],
        by rw [revise_empty_of_write heach]⟩
    | pass =>
      rw [hverdict] at hjudge heach
      exact ⟨[], fun u => text gap (empty content u), by rw [revise_empty_of_pass hjudge],
        by rw [revise_empty_of_pass heach]⟩
    | erase =>
      rw [hverdict] at hjudge heach
      exact ⟨trimEnd gap, id, by rw [revise_empty_of_erase hjudge]; rfl,
        by rw [revise_empty_of_erase heach]; rfl⟩
  · have hjudge := removeJudge_of_ownDeclaration hagree allStates hown
    have heach : eachRemoveJudge d state allStates () true content = ((), .erase) :=
      congrArg (Prod.mk ()) hjudge
    exact hrest.of_declaration hown declarations_empty (List.Sublist.refl _)
      (fun _ => revise_empty_of_erase (Prod.ext rfl hjudge)) fun _ => revise_empty_of_erase heach

/-- An element whose start tag is written is looked at inside, and a declaration may
stand there or behind it, but not in both places. -/
theorem forgetful_node_of_write {content' : Text} (hblock : d.isBlock content = false)
    (hown : ownDeclaration d state level content = [])
    (hjudge : ∀ met, removeJudge d state allStates met false content = (met, .write content'))
    (hwithin : within.Forgetful d state allStates (level + 1))
    (hrest : rest.Forgetful d state allStates level) :
    (node content within close rest).Forgetful d state allStates level := by
  intro hone met gap hmet
  have heach : eachRemoveJudge d state allStates () false content = ((), .write content') :=
    congrArg (fun judged => ((), judged.2)) (hjudge false)
  rw [declarations_node, hown, hblock, List.nil_append] at hone hmet ⊢
  have honeEach := hone
  rw [List.length_append] at honeEach
  obtain ⟨met₁, hsame₁, hmemory₁⟩ := hwithin (by omega) met [] fun h =>
    (List.append_eq_nil_iff.mp (hmet h)).1
  obtain ⟨met₂, hsame₂, hmemory₂⟩ := hrest (by omega) met₁ [] fun h =>
    (hmemory₁ h).elim (fun h => (List.append_eq_nil_iff.mp (hmet h)).2)
      fun hne => nil_of_length_append hne hone
  refine ⟨met₂, ?_, fun h => ?_⟩
  · rw [revise_node_of_write (hjudge met), revise_node_of_write heach, hsame₁, hsame₂]
  · rcases hmemory₂ h with hmet₁ | hne
    · exact (hmemory₁ hmet₁).imp_right fun hne => by simp [hne]
    · exact Or.inr (by simp [hne])

theorem forgetful_node
    (hagree : declares d state false content = d.declares state (elementOf content))
    (hwithin : within.Forgetful d state allStates (level + 1))
    (hrest : rest.Forgetful d state allStates level) :
    (node content within close rest).Forgetful d state allStates level := by
  have hsub : (declarations d state false level rest).Sublist
      (declarations d state (d.isBlock content) (level + 1) within ++
        declarations d state false level rest) := List.sublist_append_right _ _
  by_cases hown : ownDeclaration d state level content = []
  · have hjudge := removeJudge_of_ownDeclaration_nil hagree allStates hown
    have heach : eachRemoveJudge d state allStates () false content =
      ((), (removeJudge d state allStates false false content).2) := rfl
    have hsub' : (declarations d state false level rest).Sublist
        (declarations d state false level (node content within close rest)) := by
      rw [declarations_node, hown]
      exact hsub
    cases hverdict : (removeJudge d state allStates false false content).2 with
    | write content' =>
      rw [hverdict] at hjudge
      have hblock : d.isBlock content = false := by
        cases hblock : d.isBlock content with
        | false => rfl
        | true => rw [removeJudge, if_pos hblock] at hverdict; cases hverdict
      exact forgetful_node_of_write hblock hown hjudge hwithin hrest
    | pass =>
      rw [hverdict] at hjudge heach
      exact hrest.of_rest hsub' fun met gap =>
        ⟨[], fun u => text gap (node content within close u),
          by rw [revise_node_of_pass (hjudge met)], by rw [revise_node_of_pass heach]⟩
    | erase =>
      rw [hverdict] at hjudge heach
      exact hrest.of_rest hsub' fun met gap => ⟨trimEnd gap, id,
        by rw [revise_node_of_erase (hjudge met)]; rfl, by rw [revise_node_of_erase heach]; rfl⟩
  · have hjudge := removeJudge_of_ownDeclaration hagree allStates hown
    have heach : eachRemoveJudge d state allStates () false content = ((), .erase) :=
      congrArg (Prod.mk ()) hjudge
    exact hrest.of_declaration hown declarations_node hsub
      (fun _ => revise_node_of_erase (Prod.ext rfl hjudge)) fun _ => revise_node_of_erase heach

end

/-- **Without a second declaration, nothing has to be remembered.** -/
theorem revise_removeJudge
    (hagree : ∀ selfClosing content, Event.start selfClosing content ∈ w.events →
      declares d state selfClosing content = d.declares state (elementOf content))
    (allStates : List Text) (level : Nat) : w.Forgetful d state allStates level := by
  induction w generalizing level with
  | nil => exact fun _ met gap _ => ⟨met, rfl, Or.inl⟩
  | inert event hinert rest ih =>
    exact forgetful_inert (ih (fun selfClosing content hmem =>
      hagree selfClosing content (events_behind_inert hmem)) level)
  | empty content rest ih =>
    exact forgetful_empty (hagree true content List.mem_cons_self)
      (ih (fun selfClosing content hmem => hagree selfClosing content (events_behind_empty hmem)) level)
  | node content within close rest ihwithin ih =>
    exact forgetful_node (hagree false content List.mem_cons_self)
      (ihwithin (fun selfClosing content hmem => hagree selfClosing content (events_inside_node hmem))
        (level + 1))
      (ih (fun selfClosing content hmem => hagree selfClosing content (events_behind_node hmem)) level)

end Markup

end SkinMarkup
