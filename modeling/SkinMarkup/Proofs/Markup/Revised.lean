import SkinMarkup.Proofs.Markup.Revision
import SkinMarkup.Proofs.Text.Entities

/-!
# Revised markup is proper markup

If every start tag that a revision writes is proper, the revised markup is
lexed, scannable and readable as the markup was: each of these is a property that
is left when start tags are written in the places of others (`Hereditary`), and a
revision keeps every such property (`Hereditary.revise`). The markup has one root
still if the root stays. The same holds with another start tag of the root.
-/

namespace SkinMarkup.Markup

/-- A start tag that can be read in the place of another one. -/
structure Substitutes (selfClosing : Bool) (content content' : Text) : Prop where
  whole : (Event.start selfClosing content').Whole
  readable : (entriesOf? content').isSome = true
  name : WrittenAttribute.elementName content' = WrittenAttribute.elementName content

/-- A start tag that can be read and scanned in the place of another one. -/
structure Replaces (selfClosing : Bool) (content content' : Text) : Prop
    extends Substitutes selfClosing content content' where
  backslash : '\\' ∉ content'

/-- A judge that writes proper start tags only. -/
def Careful {σ : Type} (judge : σ → Bool → Text → σ × Verdict) (w : Markup) : Prop :=
  ∀ memory selfClosing content content', Event.start selfClosing content ∈ w.events →
    (judge memory selfClosing content).2 = .write content' → Replaces selfClosing content content'

/-- The same with elements that are `shut`, which the judge passes over. -/
structure CarefulOutside {σ : Type} (shut : Text → Bool) (judge : σ → Bool → Text → σ × Verdict)
    (w : Markup) : Prop where
  pass : ∀ memory content, shut content = true → (judge memory false content).2 = .pass
  write : ∀ memory selfClosing content content', (selfClosing, content) ∈ w.exposed shut →
    (judge memory selfClosing content).2 = .write content' → Replaces selfClosing content content'

section

variable {raw gap : Text} {rest : Markup}

theorem lexed_text (hraw : '<' ∉ raw) (hrest : rest.Lexed) (hstart : rest.startsText = false) :
    (text raw rest).Lexed := by
  unfold text
  split
  · exact hrest
  · next hne => exact ⟨⟨hne, hraw⟩, fun _ => hstart, hrest⟩

theorem readable_text (hraw : ∃ content, unescape raw = .ok content) (hrest : rest.Readable) :
    (text raw rest).Readable := by
  unfold text
  split
  · exact hrest
  · exact ⟨hraw, hrest⟩

theorem outer_text (hraw : Blanks raw) (hrest : rest.Outer) : (text raw rest).Outer := by
  unfold text
  split
  · exact hrest
  · refine ⟨?_, hrest⟩
    rintro _ ⟨⟩
    exact hraw

theorem single_text (hraw : Blanks raw) (hrest : rest.Single) : (text raw rest).Single := by
  unfold text
  split
  · exact hrest
  · refine ⟨?_, hrest⟩
    rintro _ ⟨⟩
    exact hraw

theorem scannable_inert {event : Event} {hinert : event.elementKind? = none} :
    (inert event hinert rest).Scannable ↔
      (event.isText = false → event.Scannable) ∧ rest.Scannable :=
  List.forall_mem_cons

theorem scannable_empty {content : Text} :
    (empty content rest).Scannable ↔ (Event.empty content).Scannable ∧ rest.Scannable := by
  rw [Scannable, events, List.forall_mem_cons]
  exact and_congr_left fun _ => ⟨fun h => h rfl, fun h _ => h⟩

theorem scannable_node {content close : Text} {inside : Markup} :
    (node content inside close rest).Scannable ↔
      (Event.opening content).Scannable ∧ inside.Scannable ∧ (Event.closing close).Scannable ∧
        rest.Scannable := by
  rw [Scannable, events, List.forall_mem_cons, List.forall_mem_append, List.forall_mem_cons]
  constructor
  · rintro ⟨h₁, h₂, h₃, h₄⟩
    exact ⟨h₁ rfl, h₂, h₃ rfl, h₄⟩
  · rintro ⟨h₁, h₂, h₃, h₄⟩
    exact ⟨fun _ => h₁, h₂, fun _ => h₃, h₄⟩

theorem scannable_text (h : rest.Scannable) : (text raw rest).Scannable := by
  unfold text
  split
  · exact h
  · exact scannable_inert.mpr ⟨(by rintro ⟨⟩), h⟩

theorem exists_unescape_trimEnd {t : Text} (h : ∃ content, unescape t = .ok content) :
    ∃ content, unescape (trimEnd t) = .ok content := by
  obtain ⟨content, hcontent⟩ := h
  obtain ⟨r, hr, hblanks⟩ := exists_eq_trimEnd t
  rw [hr] at hcontent
  exact exists_unescape_of_append hblanks hcontent

end

section

variable {σ : Type} {judge : σ → Bool → Text → σ × Verdict} {w : Markup}

theorem Careful.mono {w' : Markup} (h : Careful judge w) (hsub : w'.events ⊆ w.events) :
    Careful judge w' :=
  fun memory selfClosing content content' hmem => h memory selfClosing content content' (hsub hmem)

theorem Careful.rest {event : Event} {hinert : event.elementKind? = none}
    (h : Careful judge (inert event hinert w)) : Careful judge w :=
  h.mono events_behind_inert

theorem Careful.rest_empty {content : Text} (h : Careful judge (empty content w)) : Careful judge w :=
  h.mono events_behind_empty

theorem Careful.rest_node {content close : Text} {inside : Markup}
    (h : Careful judge (node content inside close w)) : Careful judge w :=
  h.mono events_behind_node

theorem Careful.inside {content close : Text} {rest : Markup}
    (h : Careful judge (node content w close rest)) : Careful judge w :=
  h.mono events_inside_node

theorem CarefulOutside.mono {shut : Text → Bool} {w' : Markup} (h : CarefulOutside shut judge w)
    (hsub : w'.exposed shut ⊆ w.exposed shut) : CarefulOutside shut judge w' :=
  ⟨h.pass, fun memory selfClosing content content' hmem =>
    h.write memory selfClosing content content' (hsub hmem)⟩

theorem Careful.outside (h : Careful judge w) : CarefulOutside (fun _ => false) judge w :=
  ⟨fun _ _ hshut => Bool.noConfusion hshut, fun memory selfClosing content content' hmem =>
    h memory selfClosing content content' (mem_events_of_exposed hmem)⟩

/-- A property of markup that is left when start tags are written in the places of
others. `clear` is asked of the text that is put in front of it. -/
structure Hereditary (P : Markup → Prop) (clear : Text → Prop) : Prop where
  at_end : P nil
  text : ∀ {gap : Text} {w : Markup}, clear gap → P w → w.startsText = false → P (text gap w)
  clear_nil : clear []
  clear_trimEnd : ∀ {gap : Text}, clear gap → clear (trimEnd gap)
  clear_append : ∀ {gap raw : Text} {hinert : (Event.text raw).elementKind? = none} {rest : Markup},
    P (Markup.inert (.text raw) hinert rest) → clear gap → clear (gap ++ raw)
  behind_inert : ∀ {event : Event} {hinert : event.elementKind? = none} {rest : Markup},
    P (Markup.inert event hinert rest) → P rest
  behind_empty : ∀ {content : Text} {rest : Markup}, P (Markup.empty content rest) → P rest
  behind_node : ∀ {content close : Text} {inside rest : Markup},
    P (Markup.node content inside close rest) → P rest
  inside : ∀ {content close : Text} {inside rest : Markup},
    P (Markup.node content inside close rest) → P inside
  inert : ∀ {event : Event} {hinert : event.elementKind? = none} {rest rest' : Markup},
    P (Markup.inert event hinert rest) →
      (event.isText = true → rest'.startsText = rest.startsText) → P rest' →
        P (Markup.inert event hinert rest')
  empty : ∀ {content content' : Text} {rest rest' : Markup}, P (Markup.empty content rest) →
    content' = content ∨ Replaces true content content' → P rest' → P (Markup.empty content' rest')
  node : ∀ {content content' close : Text} {inside inside' rest rest' : Markup},
    P (Markup.node content inside close rest) →
      content' = content ∨ Replaces false content content' → P inside' → P rest' →
        P (Markup.node content' inside' close rest')

/-- **Revised markup has what markup had.** -/
theorem Hereditary.revise {P : Markup → Prop} {clear : Text → Prop} (hP : Hereditary P clear)
    {shut : Text → Bool} (h : P w) (hcareful : CarefulOutside shut judge w) (memory : σ) {gap : Text}
    (hgap : clear gap) : P (w.revise judge memory gap).2 := by
  induction w generalizing memory gap with
  | nil => exact hP.text hgap hP.at_end rfl
  | inert event hinert rest ih =>
    have hrest := hP.behind_inert h
    have hcareful' : CarefulOutside shut judge rest := hcareful.mono (List.Subset.refl _)
    cases htext : event.isText with
    | true =>
      rw [revise_text hinert htext]
      refine ih hrest hcareful' memory ?_
      cases event with
      | text raw => exact hP.clear_append h hgap
      | _ => cases htext
    | false =>
      rw [revise_inert hinert htext]
      refine hP.text hgap (hP.inert h ?_ (ih hrest hcareful' memory hP.clear_nil)) htext
      intro htrue
      cases htext.symm.trans htrue
  | empty content rest ih =>
    have hrest := hP.behind_empty h
    have hcareful' : CarefulOutside shut judge rest := hcareful.mono (List.subset_cons_self _ _)
    rcases hjudge : judge memory true content with ⟨memory', verdict⟩
    have hnext := ih hrest hcareful' memory' hP.clear_nil
    cases verdict with
    | write content' =>
      rw [revise_empty_of_write hjudge]
      have hnew := hcareful.write memory true content content' List.mem_cons_self (by rw [hjudge])
      exact hP.text hgap (hP.empty h (Or.inr hnew) hnext) rfl
    | pass =>
      rw [revise_empty_of_pass hjudge]
      exact hP.text hgap (hP.empty h (Or.inl rfl) hnext) rfl
    | erase =>
      rw [revise_empty_of_erase hjudge]
      exact ih hrest hcareful' memory' (hP.clear_trimEnd hgap)
  | node content inside close rest ihinside ih =>
    have hinside := hP.inside h
    have hrest := hP.behind_node h
    have hcareful' : CarefulOutside shut judge rest := hcareful.mono exposed_behind_node
    rcases hjudge : judge memory false content with ⟨memory', verdict⟩
    cases verdict with
    | write content' =>
      rw [revise_node_of_write hjudge]
      have hnew := hcareful.write memory false content content' List.mem_cons_self (by rw [hjudge])
      have hshut : shut content = false := Bool.eq_false_iff.mpr fun hshut => by
        cases (congrArg Prod.snd hjudge).symm.trans (hcareful.pass memory content hshut)
      exact hP.text hgap (hP.node h (Or.inr hnew)
        (ihinside hinside (hcareful.mono (exposed_inside_node hshut)) memory' hP.clear_nil)
        (ih hrest hcareful' _ hP.clear_nil)) rfl
    | pass =>
      rw [revise_node_of_pass hjudge]
      exact hP.text hgap (hP.node h (Or.inl rfl) hinside
        (ih hrest hcareful' memory' hP.clear_nil)) rfl
    | erase =>
      rw [revise_node_of_erase hjudge]
      exact ih hrest hcareful' memory' (hP.clear_trimEnd hgap)

theorem startsText_setFirst (w : Markup) (content : Text) :
    (w.setFirst content).startsText = w.startsText := by
  cases w <;> rfl

/-- The same with another start tag of the root. -/
theorem Hereditary.setFirst {P : Markup → Prop} {clear : Text → Prop} (hP : Hereditary P clear)
    {selfClosing : Bool} {content content' : Text} (h : P w)
    (hfirst : w.first? = some (selfClosing, content))
    (hnew : Replaces selfClosing content content') : P (w.setFirst content') := by
  induction w with
  | nil => cases hfirst
  | inert event hinert rest ih =>
    exact hP.inert h (fun _ => startsText_setFirst rest content') (ih (hP.behind_inert h) hfirst)
  | empty content rest ih =>
    cases hfirst
    exact hP.empty h (Or.inr hnew) (hP.behind_empty h)
  | node content inside close rest ihinside ih =>
    cases hfirst
    exact hP.node h (Or.inr hnew) (hP.inside h) (hP.behind_node h)

theorem hereditary_lexed : Hereditary Lexed ('<' ∉ ·) where
  at_end := trivial
  text := lexed_text
  clear_nil := List.not_mem_nil
  clear_trimEnd := fun hgap hmem => hgap (trimEnd_subset _ hmem)
  clear_append := fun h hgap => by simpa [hgap] using h.1.2
  behind_inert := fun h => h.2.2
  behind_empty := fun h => h.2
  behind_node := fun h => h.2.2.2
  inside := fun h => h.2.1
  inert := fun h hstart hrest => ⟨h.1, fun htext => (hstart htext).trans (h.2.1 htext), hrest⟩
  empty := by
    rintro content content' rest rest' h (rfl | hnew) hrest
    · exact ⟨h.1, hrest⟩
    · exact ⟨hnew.whole, hrest⟩
  node := by
    rintro content content' close inside inside' rest rest' h (rfl | hnew) hinside hrest
    · exact ⟨h.1, hinside, h.2.2.1, hrest⟩
    · exact ⟨hnew.whole, hinside, h.2.2.1, hrest⟩

theorem hereditary_readable : Hereditary Readable fun gap => ∃ content, unescape gap = .ok content where
  at_end := trivial
  text := fun hgap h _ => readable_text hgap h
  clear_nil := ⟨[], blanks_nil.unescape_eq⟩
  clear_trimEnd := exists_unescape_trimEnd
  clear_append := by
    rintro gap raw hinert rest ⟨⟨b, hb⟩, -⟩ ⟨a, ha⟩
    exact ⟨a ++ b, unescape_append ha hb⟩
  behind_inert := fun h => h.2
  behind_empty := fun h => h.2
  behind_node := fun h => h.2.2.2
  inside := fun h => h.2.1
  inert := fun h _ hrest => ⟨h.1, hrest⟩
  empty := by
    rintro content content' rest rest' h (rfl | hnew) hrest
    · exact ⟨h.1, hrest⟩
    · exact ⟨hnew.readable, hrest⟩
  node := by
    rintro content content' close inside inside' rest rest' h (rfl | hnew) hinside hrest
    · exact ⟨h.1, hinside, h.2.2.1, hrest⟩
    · exact ⟨hnew.readable, hinside, hnew.name.trans h.2.2.1, hrest⟩

theorem Replaces.scannable {selfClosing : Bool} {content content' : Text}
    (h : Replaces selfClosing content content') : (Event.start selfClosing content').Scannable :=
  h.whole.scannable_start h.backslash

theorem hereditary_scannable : Hereditary Scannable fun _ => True where
  at_end := by rintro event ⟨⟩
  text := fun _ h _ => scannable_text h
  clear_nil := trivial
  clear_trimEnd := id
  clear_append := fun _ => id
  behind_inert := fun h => (scannable_inert.mp h).2
  behind_empty := fun h => (scannable_empty.mp h).2
  behind_node := fun h => (scannable_node.mp h).2.2.2
  inside := fun h => (scannable_node.mp h).2.1
  inert := fun h _ hrest => scannable_inert.mpr ⟨(scannable_inert.mp h).1, hrest⟩
  empty := by
    rintro content content' rest rest' h (rfl | hnew) hrest
    · exact scannable_empty.mpr ⟨(scannable_empty.mp h).1, hrest⟩
    · exact scannable_empty.mpr ⟨hnew.scannable, hrest⟩
  node := by
    rintro content content' close inside inside' rest rest' h (rfl | hnew) hinside hrest
    all_goals obtain ⟨hevent, -, hclose, -⟩ := scannable_node.mp h
    · exact scannable_node.mpr ⟨hevent, hinside, hclose, hrest⟩
    · exact scannable_node.mpr ⟨hnew.scannable, hinside, hclose, hrest⟩

/-- Markup outside all elements stays outside. -/
theorem Outer.revise (h : w.Outer) (memory : σ) {gap : Text} (hgap : Blanks gap) :
    (w.revise judge memory gap).2.Outer := by
  induction w generalizing memory gap with
  | nil => exact outer_text hgap trivial
  | inert event hinert rest ih =>
    obtain ⟨hevent, hrest⟩ := h
    cases htext : event.isText with
    | true =>
      rw [revise_text hinert htext]
      refine ih hrest memory (hgap.append ?_)
      cases event with
      | text raw => exact hevent raw rfl
      | _ => cases htext
    | false =>
      rw [revise_inert hinert htext]
      exact outer_text hgap ⟨hevent, ih hrest memory blanks_nil⟩
  | empty content rest ih => cases h
  | node content inside close rest ihinside ih => cases h

/-- **Revised markup has one root if the root stays.** -/
theorem Single.revise (h : w.Single) (memory : σ) {gap : Text} (hgap : Blanks gap)
    (hroot : ∀ selfClosing content, w.first? = some (selfClosing, content) →
      (judge memory selfClosing content).2 ≠ .erase) :
    (w.revise judge memory gap).2.Single := by
  induction w generalizing memory gap with
  | nil => cases h
  | inert event hinert rest ih =>
    obtain ⟨hevent, hrest⟩ := h
    cases htext : event.isText with
    | true =>
      rw [revise_text hinert htext]
      refine ih hrest memory (hgap.append ?_) hroot
      cases event with
      | text raw => exact hevent raw rfl
      | _ => cases htext
    | false =>
      rw [revise_inert hinert htext]
      exact single_text hgap ⟨hevent, ih hrest memory blanks_nil hroot⟩
  | empty content rest ih =>
    rcases hjudge : judge memory true content with ⟨memory', verdict⟩
    have hrest : rest.Outer := h
    cases verdict with
    | write content' =>
      rw [revise_empty_of_write hjudge]
      have hsingle : (empty content' (rest.revise judge memory' []).2).Single :=
        hrest.revise memory' blanks_nil
      exact single_text hgap hsingle
    | pass =>
      rw [revise_empty_of_pass hjudge]
      have hsingle : (empty content (rest.revise judge memory' []).2).Single :=
        hrest.revise memory' blanks_nil
      exact single_text hgap hsingle
    | erase => exact absurd (by rw [hjudge]) (hroot true content rfl)
  | node content inside close rest ihinside ih =>
    rcases hjudge : judge memory false content with ⟨memory', verdict⟩
    have hrest : rest.Outer := h
    cases verdict with
    | write content' =>
      rw [revise_node_of_write hjudge]
      have hsingle : (node content' (inside.revise judge memory' []).2 close
          (rest.revise judge (inside.revise judge memory' []).1 []).2).Single :=
        hrest.revise _ blanks_nil
      exact single_text hgap hsingle
    | pass =>
      rw [revise_node_of_pass hjudge]
      have hsingle : (node content inside close (rest.revise judge memory' []).2).Single :=
        hrest.revise memory' blanks_nil
      exact single_text hgap hsingle
    | erase => exact absurd (by rw [hjudge]) (hroot false content rfl)

end

/-! ## The root -/

section

variable {w : Markup}

theorem Single.setFirst (h : w.Single) (content : Text) : (w.setFirst content).Single := by
  induction w with
  | nil => cases h
  | inert event hinert rest ih => exact ⟨h.1, ih h.2⟩
  | empty _ rest ih => exact h
  | node _ inside close rest ihinside ih => exact h

theorem Single.exists_first (h : w.Single) :
    ∃ selfClosing content, w.first? = some (selfClosing, content) := by
  induction w with
  | nil => cases h
  | inert event hinert rest ih => exact ih h.2
  | empty content rest ih => exact ⟨true, content, rfl⟩
  | node content inside close rest ihinside ih => exact ⟨false, content, rfl⟩

end

end SkinMarkup.Markup
