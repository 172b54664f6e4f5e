import SkinMarkup.Proofs.Attribute.Entries
import SkinMarkup.Proofs.Document.Reading

/-!
# A start tag on its own

The start tag of an element can be read again as an empty element, without what
surrounds it and without the first part of its name. `exists_parse_fragment`
says that such a fragment is a document with the same attributes.
-/

namespace SkinMarkup

namespace Event

variable {quote : Option Char} {content rest cs : Text}

/-- Content that can be closed leaves no quote open, so what follows it is cut
as it would be alone. -/
theorem cutTag_append (h : cutTag quote (content ++ '>' :: rest) = some (content, rest))
    (more : Text) :
    cutTag quote (content ++ more) = (cutTag none more).map fun (s, t) => (content ++ s, t) := by
  induction content generalizing quote with
  | nil =>
    cases quote with
    | none => simp
    | some q => simp [cutTag] at h
  | cons c cs ih =>
    cases quote with
    | none =>
      by_cases hc : c = '>'
      · simp [cutTag, hc] at h
      · simp only [List.cons_append, cutTag, if_neg hc, Option.map_eq_some_iff, Prod.mk.injEq,
          List.cons.injEq, true_and, Prod.exists] at h ⊢
        obtain ⟨s, t, hst, rfl, rfl⟩ := h
        rw [ih hst, Option.map_map]
        rfl
    | some q =>
      simp only [List.cons_append, cutTag, Option.map_eq_some_iff, Prod.mk.injEq, List.cons.injEq,
        true_and, Prod.exists] at h ⊢
      obtain ⟨s, t, hst, rfl, rfl⟩ := h
      rw [ih hst, Option.map_map]
      rfl

theorem cutTag_of_plain (h : ∀ c ∈ content, c ≠ '>' ∧ c ≠ '"' ∧ c ≠ '\'') :
    cutTag none (content ++ '>' :: rest) = some (content, rest) := by
  induction content with
  | nil => rfl
  | cons c cs ih =>
    obtain ⟨⟨h₁, h₂, h₃⟩, hcs⟩ := List.forall_mem_cons.mp h
    have hquote : ¬(c = '"' ∨ c = '\'') := by
      rintro (hc | hc)
      · exact h₂ hc
      · exact h₃ hc
    rw [List.cons_append, cutTag, if_neg h₁, if_neg hquote, ih hcs]
    rfl

/-- Quotes are where they were when a part without any is left out before them. -/
theorem cutTag_of_append {qualifier : Text} (hplain : ∀ c ∈ qualifier, c ≠ '>' ∧ c ≠ '"' ∧ c ≠ '\'')
    (h : cutTag none (qualifier ++ content ++ '>' :: rest) = some (qualifier ++ content, rest)) :
    cutTag none (content ++ '>' :: rest) = some (content, rest) := by
  have hclosed : cutTag none (qualifier ++ '>' :: rest) = some (qualifier, rest) :=
    cutTag_of_plain hplain
  rw [List.append_assoc, cutTag_append hclosed, Option.map_eq_some_iff] at h
  obtain ⟨⟨s, t⟩, hcut, heq⟩ := h
  obtain ⟨hs, rfl⟩ := Prod.mk.inj heq
  rw [hcut, List.append_cancel_left hs]

/-- Declarations, instructions and end tags start no element. -/
theorem nextOpening_or_of_nextMarkup {event : Event} (h : nextMarkup cs = .ok (event, rest)) :
    nextOpening cs = .ok (event, rest) ∨ event.elementKind? = none ∨
      event.elementKind? = some .closing := by
  unfold nextMarkup at h
  split at h
  · unfold nextDeclaration nextCdata nextComment nextDoctype at h
    repeat' split at h
    all_goals cases h
    all_goals exact Or.inr (Or.inl rfl)
  · unfold nextClosing at h
    split at h
    · cases h
      exact Or.inr (Or.inr rfl)
    · cases h
  · unfold nextInstruction at h
    repeat' split at h
    all_goals cases h
    exact Or.inr (Or.inl rfl)
  · exact Or.inl h

/-- A start tag is cut off at its end; the slash of an empty element comes
before that. -/
theorem cutTag_of_next_start {selfClosing : Bool}
    (h : next '<' cs = .ok (start selfClosing content, rest)) :
    cutTag none cs = some (content ++ if selfClosing then ['/'] else [], rest) := by
  rw [next, if_pos rfl] at h
  have hopening : nextOpening cs = .ok (start selfClosing content, rest) := by
    rcases nextOpening_or_of_nextMarkup h with hopening | hkind
    · exact hopening
    · cases selfClosing <;> simp [start, elementKind?] at hkind
  unfold nextOpening at hopening
  split at hopening
  · next hcut =>
    rw [hcut]
    split at hopening
    · next hbefore =>
      cases selfClosing with
      | false => cases hopening
      | true =>
        cases hopening
        rw [before?_eq_some hbefore]
        rfl
    · cases selfClosing with
      | false =>
        cases hopening
        simp
      | true => cases hopening
  · cases hopening

theorem before?_append (word content : Text) : before? word (content ++ word) = some content := by
  rw [before?, List.reverse_append, after?_append, Option.map_some, List.reverse_reverse]

theorem next_empty (hfirst : ∀ c ∈ content.head?, c ≠ '!' ∧ c ≠ '/' ∧ c ≠ '?') (hne : content ≠ [])
    (hcut : cutTag none (content ++ ['/', '>']) = some (content ++ ['/'], [])) :
    next '<' (content ++ ['/', '>']) = .ok (.empty content, []) := by
  have hopening : nextOpening (content ++ ['/', '>']) = .ok (.empty content, []) := by
    unfold nextOpening
    rw [hcut]
    dsimp only
    rw [before?_append]
  obtain ⟨c, cs, rfl⟩ := List.exists_cons_of_ne_nil hne
  obtain ⟨h₁, h₂, h₃⟩ := hfirst c rfl
  rw [next, if_pos rfl, ← hopening, List.cons_append]
  unfold nextMarkup
  split
  · next heq => exact absurd (List.cons.inj heq).1 h₁
  · next heq => exact absurd (List.cons.inj heq).1 h₂
  · next heq => exact absurd (List.cons.inj heq).1 h₃
  · rfl

theorem lex_of_next {c : Char} {event : Event} (h : next c cs = .ok (event, [])) :
    lex (c :: cs) = ([event], none) := by
  have hnil : ∀ offset, lexFrom offset [] = ([], none) := fun offset => by rw [lexFrom]
  rw [lex, lexFrom.eq_def]
  dsimp only
  split
  · next heq =>
    rw [h] at heq
    cases heq
  · next heq =>
    rw [h] at heq
    cases heq
    rw [hnil]

end Event

/-- **A start tag that stands alone as an empty element is a document** with its
name and its attributes. -/
theorem exists_parse_fragment (options : ParseOptions) (hstrict : options.strict = true)
    {content : Text} {attributes : List Attribute}
    (hnext : Event.next '<' (content ++ ['/', '>']) = .ok (.empty content, []))
    (hattributes : attributesOf 0 (Event.empty content).source content = .ok attributes) :
    ∃ root, parse options (Event.empty content).source = .ok ⟨root, []⟩ ∧
      root.head.name = WrittenAttribute.elementName content ∧ root.head.attributes = attributes := by
  have hmark : (Event.empty content).source.head? ≠ some Source.mark := by
    simp [Event.source, Source.mark]
  let s := Source.ofText (Event.empty content).source
  have hshown : s.shown 0 (Event.empty content).source = .ok (Event.empty content).source := by
    have hsplit : s.text = [] ++ (Event.empty content).source ++ [] := (List.append_nil _).symm
    exact Source.shown_of_eq hsplit
  have hopen : Builder.start.openTag s 0 content (Event.empty content).source =
      .ok (Builder.start.newTag s 0 content (Event.empty content).source attributes) := by
    unfold Builder.openTag
    simp only [hshown, bind, Except.bind]
    rw [hattributes]
    rfl
  -- The one event opens a tag and closes it at once, and nothing is left open.
  let tag := Builder.start.newTag s 0 content (Event.empty content).source attributes
  let r : Tag := { tag with head := { tag.head with selfClosing := true } }
  have hrun : Builder.start.run s 0 [.empty content] = (⟨[], some r⟩, none) := by
    rw [Builder.run, Builder.step, hopen]
    rfl
  exact ⟨r, (parse_eq_ok_iff_run hstrict hmark).mpr ⟨_, Event.lex_of_next hnext, hrun⟩, rfl, rfl⟩

end SkinMarkup
