import SkinMarkup.Proofs.State.Documents

/-!
# Documents with other start tags

Some revisions erase nothing: every start tag gets another text. What they make of markup
differs in the contents of start tags alone (`Markup.Rewritten`), as in
`Document.exists_written`. If each new start tag can take the place of the old one, the
outcome is a document again: `Document.rewritten`.
-/

namespace SkinMarkup.Markup

/-- Markup and the same markup with other contents of start tags, which are related
by `Q`. -/
inductive Rewritten (Q : Bool → Text → Text → Prop) : Markup → Markup → Prop where
  | nil : Rewritten Q nil nil
  | inert {event : Event} {isInert : event.elementKind? = none} {rest rest' : Markup}
      (hrest : Rewritten Q rest rest') :
      Rewritten Q (inert event isInert rest) (inert event isInert rest')
  | empty {content content' : Text} {rest rest' : Markup} (hcontent : Q true content content')
      (hrest : Rewritten Q rest rest') : Rewritten Q (empty content rest) (empty content' rest')
  | node {content content' close : Text} {inside inside' rest rest' : Markup}
      (hcontent : Q false content content') (hinside : Rewritten Q inside inside')
      (hrest : Rewritten Q rest rest') :
      Rewritten Q (node content inside close rest) (node content' inside' close rest')

variable {Q R : Bool → Text → Text → Prop} {w w' : Markup} {selfClosing : Bool}
  {content content' : Text}

namespace Rewritten

theorem imp (h : Rewritten Q w w')
    (himp : ∀ selfClosing content content', Q selfClosing content content' →
      R selfClosing content content') : Rewritten R w w' := by
  induction h with
  | nil => exact .nil
  | inert _ ih => exact .inert ih
  | empty hcontent _ ih => exact .empty (himp _ _ _ hcontent) ih
  | node hcontent _ _ ihinside ih => exact .node (himp _ _ _ hcontent) ihinside ih

/-! ## The first start tag -/

theorem exists_first (h : Rewritten Q w w') (hfirst : w.first? = some (selfClosing, content)) :
    ∃ content', w'.first? = some (selfClosing, content') ∧ Q selfClosing content content' := by
  induction h with
  | nil => cases hfirst
  | inert _ ih => exact ih hfirst
  | empty hcontent _ _ =>
    cases hfirst
    exact ⟨_, rfl, hcontent⟩
  | node hcontent _ _ _ _ =>
    cases hfirst
    exact ⟨_, rfl, hcontent⟩

/-- The first start tag may be rewritten once more. -/
theorem setFirst (h : Rewritten Q w w') (hfirst : w.first? = some (selfClosing, content))
    (hcontent : Q selfClosing content content') : Rewritten Q w (w'.setFirst content') := by
  induction h with
  | nil => cases hfirst
  | inert _ ih => exact .inert (ih hfirst)
  | empty _ hrest _ =>
    cases hfirst
    exact .empty hcontent hrest
  | node _ hinside hrest _ _ =>
    cases hfirst
    exact .node hcontent hinside hrest

/-! ## Proper markup -/

/-- Start tags have no part in the leaf of a tag around the markup. -/
theorem leaf?_eq (h : Rewritten Q w w') : w'.leaf? = w.leaf? := by
  induction h with
  | nil => rfl
  | inert _ ih =>
    rw [leaf?, leaf?, ih]
  | empty => rfl
  | node => rfl

theorem startsText_eq (h : Rewritten Q w w') : w'.startsText = w.startsText := by
  cases h <;> rfl

theorem lexed (h : Rewritten Substitutes w w') (hw : w.Lexed) : w'.Lexed := by
  induction h with
  | nil => exact trivial
  | inert hrest ih =>
    obtain ⟨hwhole, hseparate, hlexed⟩ := hw
    refine ⟨hwhole, ?_, ih hlexed⟩
    intro htext
    rw [hrest.startsText_eq]
    exact hseparate htext
  | empty hcontent _ ih => exact ⟨hcontent.whole, ih hw.2⟩
  | node hcontent _ _ ihinside ih =>
    obtain ⟨-, hinside, hclose, hrest⟩ := hw
    exact ⟨hcontent.whole, ihinside hinside, hclose, ih hrest⟩

theorem scannable (h : Rewritten Replaces w w') (hw : w.Scannable) : w'.Scannable := by
  induction h with
  | nil => exact hw
  | inert _ ih =>
    obtain ⟨hevent, hrest⟩ := scannable_inert.mp hw
    exact scannable_inert.mpr ⟨hevent, ih hrest⟩
  | empty hcontent _ ih =>
    obtain ⟨-, hrest⟩ := scannable_empty.mp hw
    exact scannable_empty.mpr ⟨hcontent.scannable, ih hrest⟩
  | node hcontent _ _ ihinside ih =>
    obtain ⟨-, hinside, hclose, hrest⟩ := scannable_node.mp hw
    exact scannable_node.mpr ⟨hcontent.scannable, ihinside hinside, hclose, ih hrest⟩

/-- Only the first start tag and what stands in front of it decide whether a scan finds
it. -/
theorem opens (h : Rewritten Q w w') (hw : w.Opens)
    (hfirst : w'.first? = some (selfClosing, content))
    (hcontent : (Event.start selfClosing content).Scannable) : w'.Opens := by
  induction h with
  | nil => exact hw
  | inert _ ih =>
    obtain ⟨hevent, hopens⟩ := List.forall_mem_cons.mp hw
    exact List.forall_mem_cons.mpr ⟨hevent, ih hopens hfirst⟩
  | empty =>
    cases hfirst
    exact List.forall_mem_singleton.mpr fun _ => hcontent
  | node =>
    cases hfirst
    exact List.forall_mem_singleton.mpr fun _ => hcontent

theorem readable (h : Rewritten Substitutes w w') (hw : w.Readable) : w'.Readable := by
  induction h with
  | nil => exact trivial
  | inert _ ih => exact ⟨hw.1, ih hw.2⟩
  | empty hcontent _ ih => exact ⟨hcontent.readable, ih hw.2⟩
  | node hcontent _ _ ihinside ih =>
    obtain ⟨-, hinside, hname, hrest⟩ := hw
    exact ⟨hcontent.readable, ihinside hinside, hcontent.name.trans hname, ih hrest⟩

theorem outer (h : Rewritten Q w w') (hw : w.Outer) : w'.Outer := by
  induction h with
  | nil => exact trivial
  | inert _ ih => exact ⟨hw.1, ih hw.2⟩
  | empty => cases hw
  | node => cases hw

theorem single (h : Rewritten Q w w') (hw : w.Single) : w'.Single := by
  induction h with
  | nil => cases hw
  | inert _ ih => exact ⟨hw.1, ih hw.2⟩
  | empty _ hrest _ => exact hrest.outer hw
  | node _ _ hrest _ _ => exact hrest.outer hw

end Rewritten

/-- **A document with other start tags is a document.** -/
theorem Document.rewritten (hw : w.Document) (h : Rewritten Replaces w w') : w'.Document :=
  have hread := h.imp fun _ _ _ => Replaces.toSubstitutes
  ⟨hread.lexed hw.lexed, h.scannable hw.scannable, hread.readable hw.readable, h.single hw.single⟩

/-! ## Revisions that write every start tag -/

section

variable {σ : Type} {judge : σ → Bool → Text → σ × Verdict}

/-- A judge that gives every start tag a content. -/
def Writes (Q : Bool → Text → Text → Prop) (judge : σ → Bool → Text → σ × Verdict) (w : Markup) :
    Prop :=
  ∀ memory selfClosing content, Event.start selfClosing content ∈ w.events →
    ∃ memory' content', judge memory selfClosing content = (memory', .write content') ∧
      Q selfClosing content content'

theorem Writes.mono (h : Writes Q judge w) (hsub : w'.events ⊆ w.events) : Writes Q judge w' :=
  fun memory selfClosing content hmem => h memory selfClosing content (hsub hmem)

/-- **If every start tag is written, nothing else of lexed markup changes.** -/
theorem Lexed.exists_rewritten (h : w.Lexed) (hwrites : Writes Q judge w) (memory : σ) {gap : Text}
    (hgap : gap = [] ∨ w.startsText = false) :
    ∃ w', Rewritten Q w w' ∧ (w.revise judge memory gap).2 = text gap w' := by
  induction w generalizing memory gap with
  | nil => exact ⟨nil, .nil, rfl⟩
  | inert event hinert rest ih =>
    obtain ⟨hwhole, hseparate, hrest⟩ := h
    have hwritesRest : Writes Q judge rest := hwrites.mono events_behind_inert
    cases htext : event.isText with
    | true =>
      obtain rfl := hgap.resolve_right (by rw [startsText, htext]; exact Bool.noConfusion)
      cases event with
      | text raw =>
        have hgap : raw = [] ∨ rest.startsText = false := Or.inr (hseparate htext)
        obtain ⟨rest', hrewritten, hrevise⟩ := ih hrest hwritesRest memory hgap
        refine ⟨inert (.text raw) hinert rest', .inert hrewritten, ?_⟩
        rw [revise_text hinert htext, List.nil_append, Event.source, hrevise, text,
          if_neg hwhole.1]
        rfl
      | _ => cases htext
    | false =>
      obtain ⟨rest', hrewritten, hrevise⟩ := ih hrest hwritesRest memory (Or.inl rfl)
      refine ⟨inert event hinert rest', .inert hrewritten, ?_⟩
      rw [revise_inert hinert htext, hrevise]
      rfl
  | empty content rest ih =>
    have hwritesRest : Writes Q judge rest := hwrites.mono events_behind_empty
    obtain ⟨memory', content', hjudge, hcontent⟩ :=
      hwrites memory true content List.mem_cons_self
    obtain ⟨rest', hrewritten, hrevise⟩ := ih h.2 hwritesRest memory' (Or.inl rfl)
    refine ⟨empty content' rest', .empty hcontent hrewritten, ?_⟩
    rw [revise_empty_of_write hjudge, hrevise]
    rfl
  | node content inside close rest ihinside ih =>
    obtain ⟨-, hinside, -, hrest⟩ := h
    have hwritesInside : Writes Q judge inside := hwrites.mono events_inside_node
    have hwritesRest : Writes Q judge rest := hwrites.mono events_behind_node
    obtain ⟨memory', content', hjudge, hcontent⟩ :=
      hwrites memory false content List.mem_cons_self
    obtain ⟨inside', hrewrittenInside, hreviseInside⟩ :=
      ihinside hinside hwritesInside memory' (Or.inl rfl)
    obtain ⟨rest', hrewritten, hrevise⟩ :=
      ih hrest hwritesRest (inside.revise judge memory' []).1 (Or.inl rfl)
    refine ⟨node content' inside' close rest', .node hcontent hrewrittenInside hrewritten, ?_⟩
    rw [revise_node_of_write hjudge, hreviseInside, hrevise]
    rfl

/-- **A document in which every start tag is written.** -/
theorem Document.exists_written {act : σ → Token → σ × Action} (hw : w.Document)
    (hfollows : Follows judge act w) (hwrites : Writes Q judge w) (memory : σ) :
    ∃ w', Rewritten Q w w' ∧ reviseText act memory w.source = ⟨w'.source, true⟩ := by
  obtain ⟨w', hrewritten, hrevise⟩ := hw.lexed.exists_rewritten hwrites memory (Or.inl rfl)
  refine ⟨w', hrewritten, ?_⟩
  rw [reviseText_source hw.lexed hw.scannable hfollows, hrevise]
  rfl

end

end SkinMarkup.Markup
