import SkinMarkup.Proofs.Document.Fragment
import SkinMarkup.Proofs.Text.Cutting

/-!
# Events that are cut off wherever they stand

The end of a piece of markup is found in the piece itself. So an event that was
cut off one text is cut off every text that starts with it: `whole_of_next`. A
run of text ends where markup or the end of the document follows.
-/

namespace SkinMarkup.Event

variable {quote : Option Char} {depth : Nat} {c : Char} {t cs content rest before after : Text}
  {event : Event}

/-! ## The ends of tags and declarations -/

theorem cutTag_of_cut (h : cutTag quote t = some (content, rest)) (rest' : Text) :
    cutTag quote (content ++ '>' :: rest') = some (content, rest') := by
  rw [cutTag_eq_some h] at h
  rw [cutTag_append h]
  simp [cutTag]

theorem cutBalanced_of_cut (h : cutBalanced depth t = some (content, rest)) (rest' : Text) :
    cutBalanced depth (content ++ '>' :: rest') = some (content, rest') := by
  induction t generalizing depth content with
  | nil => simp [cutBalanced] at h
  | cons c cs ih =>
    by_cases hc : c = '>'
    · subst hc
      cases depth with
      | zero =>
        simp only [cutBalanced, if_pos, Option.some.injEq, Prod.mk.injEq] at h
        rw [← h.1]
        simp [cutBalanced]
      | succ depth =>
        simp only [cutBalanced, if_pos, Option.map_eq_some_iff, Prod.mk.injEq, Prod.exists] at h
        obtain ⟨s, t, hst, rfl, rfl⟩ := h
        simp only [List.cons_append, cutBalanced, if_pos, ih hst, Option.map_some]
    · simp only [cutBalanced, if_neg hc, Option.map_eq_some_iff, Prod.mk.injEq, Prod.exists] at h
      obtain ⟨s, t, hst, rfl, rfl⟩ := h
      simp only [List.cons_append, cutBalanced, if_neg hc, ih hst, Option.map_some]

/-! ## One event -/

/-- An event that is cut off every text which starts with it. For a run of text
this takes more: what follows must not be text. -/
def Whole : Event → Prop
  | text raw => raw ≠ [] ∧ '<' ∉ raw
  | event => ∀ rest, ∃ cs, event.source ++ rest = '<' :: cs ∧ next '<' cs = .ok (event, rest)

/-- What makes an event whole, if it is markup that `nextMarkup` cuts off. -/
def MarkupWhole (event : Event) : Prop :=
  ∀ rest, ∃ cs, event.source ++ rest = '<' :: cs ∧ nextMarkup cs = .ok (event, rest)

theorem markupWhole_of_nextCdata (h : nextCdata t = .ok (event, rest)) : MarkupWhole event := by
  unfold nextCdata at h
  split at h
  · cases h
  · split at h
    · next content after hcut =>
      cases h
      intro rest'
      refine ⟨'!' :: (['[', 'C', 'D', 'A', 'T', 'A', '['] ++
        (content ++ ([']', ']', '>'] ++ rest'))), by simp [source], ?_⟩
      show nextCdata (['[', 'C', 'D', 'A', 'T', 'A', '['] ++
        (content ++ ([']', ']', '>'] ++ rest'))) = _
      rw [nextCdata, after?_append]
      dsimp only
      rw [cutAtWord_of_cut (by simp) hcut]
    · cases h

theorem markupWhole_of_nextComment (h : nextComment t = .ok (event, rest)) : MarkupWhole event := by
  unfold nextComment at h
  split at h
  · split at h
    · next content after hcut =>
      cases h
      intro rest'
      refine ⟨'!' :: '-' :: '-' :: (content ++ (['-', '-', '>'] ++ rest')), by simp [source], ?_⟩
      show nextComment ('-' :: '-' :: (content ++ (['-', '-', '>'] ++ rest'))) = _
      rw [nextComment, cutAtWord_of_cut (by simp) hcut]
    · cases h
  · cases h

theorem markupWhole_of_nextDoctype (hhead : t.head? = some 'D' ∨ t.head? = some 'd')
    (h : nextDoctype t = .ok (event, rest)) : MarkupWhole event := by
  have hnext := h
  unfold nextDoctype at h
  split at h
  · cases h
  · next content after hcut =>
    split at h
    · cases h
    · next hdoctype =>
      split at h
      · cases h
      · next hname =>
        cases h
        intro rest'
        have hdecl : nextDeclaration (content ++ '>' :: rest') =
            nextDoctype (content ++ '>' :: rest') := by
          have ht := cutBalanced_eq_some hcut
          cases content with
          | nil => rw [ht] at hhead; simp at hhead
          | cons c cs =>
            rw [ht] at hhead
            simp only [List.cons_append, List.head?_cons, Option.some.injEq] at hhead
            rw [nextDeclaration, List.cons_append, List.head?_cons]
            rcases hhead with rfl | rfl <;> rfl
        refine ⟨'!' :: (content ++ '>' :: rest'), by simp [source], ?_⟩
        rw [nextMarkup, hdecl, nextDoctype, cutBalanced_of_cut hcut]
        dsimp only
        rw [if_neg hdoctype, if_neg hname]

theorem markupWhole_of_nextInstruction (h : nextInstruction t = .ok (event, rest)) :
    MarkupWhole event := by
  unfold nextInstruction at h
  split at h
  · cases h
  · next hhead =>
    split at h
    · next content after hcut =>
      cases h
      intro rest'
      have hhead' : (content ++ (['?', '>'] ++ rest')).head? ≠ some '>' := by
        rw [cutAtWord_eq_some hcut] at hhead
        cases content with
        | nil => simp
        | cons c cs => simpa using hhead
      refine ⟨'?' :: (content ++ (['?', '>'] ++ rest')), by simp [source], ?_⟩
      rw [nextMarkup, nextInstruction, if_neg hhead', cutAtWord_of_cut (by simp) hcut]
    · cases h

theorem markupWhole_of_nextClosing (h : nextClosing t = .ok (event, rest)) : MarkupWhole event := by
  unfold nextClosing at h
  split at h
  · next content after hcut =>
    cases h
    intro rest'
    refine ⟨'/' :: (content ++ '>' :: rest'), by simp [source], ?_⟩
    rw [nextMarkup, nextClosing, cutTag_of_cut hcut]
  · cases h

/-- What is neither a declaration, nor an end tag, nor an instruction is a start
tag. -/
theorem nextMarkup_eq_nextOpening (h : ∀ c ∈ t.head?, c ≠ '!' ∧ c ≠ '/' ∧ c ≠ '?') :
    nextMarkup t = nextOpening t := by
  unfold nextMarkup
  split
  · exact absurd rfl (h _ rfl).1
  · exact absurd rfl (h _ rfl).2.1
  · exact absurd rfl (h _ rfl).2.2
  · rfl

theorem markupWhole_of_nextOpening (hhead : ∀ c ∈ t.head?, c ≠ '!' ∧ c ≠ '/' ∧ c ≠ '?')
    (h : nextOpening t = .ok (event, rest)) : MarkupWhole event := by
  unfold nextOpening at h
  split at h
  · next content after hcut =>
    have hhead' : ∀ rest', ∀ c ∈ (content ++ '>' :: rest').head?, c ≠ '!' ∧ c ≠ '/' ∧ c ≠ '?' := by
      intro rest' c hc
      apply hhead
      rw [cutTag_eq_some hcut]
      cases content with
      | nil => exact hc
      | cons d ds => exact hc
    split at h
    · next inner hbefore =>
      cases h
      intro rest'
      have hcontent := before?_eq_some hbefore
      refine ⟨content ++ '>' :: rest', by simp [source, hcontent], ?_⟩
      rw [nextMarkup_eq_nextOpening (hhead' rest'), nextOpening, cutTag_of_cut hcut]
      dsimp only
      rw [hbefore]
    · next hbefore =>
      cases h
      intro rest'
      refine ⟨content ++ '>' :: rest', by simp [source], ?_⟩
      rw [nextMarkup_eq_nextOpening (hhead' rest'), nextOpening, cutTag_of_cut hcut]
      dsimp only
      rw [hbefore]
  · cases h

theorem markupWhole_of_nextMarkup (h : nextMarkup t = .ok (event, rest)) : MarkupWhole event := by
  unfold nextMarkup at h
  split at h
  · unfold nextDeclaration at h
    split at h
    · exact markupWhole_of_nextCdata h
    · exact markupWhole_of_nextComment h
    · next hhead => exact markupWhole_of_nextDoctype (Or.inl hhead) h
    · next hhead => exact markupWhole_of_nextDoctype (Or.inr hhead) h
    · cases h
  · exact markupWhole_of_nextClosing h
  · exact markupWhole_of_nextInstruction h
  · next h₁ h₂ h₃ =>
    refine markupWhole_of_nextOpening ?_ h
    intro c hc
    obtain ⟨cs, rfl⟩ := List.head?_eq_some_iff.mp hc
    exact ⟨fun e => h₁ cs (e ▸ rfl), fun e => h₂ cs (e ▸ rfl), fun e => h₃ cs (e ▸ rfl)⟩

theorem MarkupWhole.whole (h : MarkupWhole event) : event.Whole := by
  have hmarkup : ∀ rest, ∃ cs, event.source ++ rest = '<' :: cs ∧
      next '<' cs = .ok (event, rest) := by
    intro rest
    obtain ⟨cs, hcs, hnext⟩ := h rest
    exact ⟨cs, hcs, by rw [next, if_pos rfl, hnext]⟩
  cases event with
  | text raw =>
    -- No markup is cut off as text.
    obtain ⟨cs, -, hnext⟩ := h []
    exfalso
    unfold nextMarkup nextDeclaration nextCdata nextComment nextDoctype nextClosing
      nextInstruction nextOpening at hnext
    repeat' split at hnext
    all_goals cases hnext
  | opening content => exact hmarkup
  | empty content => exact hmarkup
  | closing content => exact hmarkup
  | cdata content => exact hmarkup
  | aside raw => exact hmarkup

/-- Whether an event is a run of text. -/
def isText : Event → Bool
  | text _ => true
  | _ => false

/-- **An event that is cut off is whole,** and a run of text ends in front of
markup or at the end. -/
theorem whole_of_next (h : next c cs = .ok (event, rest)) :
    event.Whole ∧ (event.isText = true → ∀ d ∈ rest.head?, d = '<') := by
  unfold next at h
  split at h
  · have hwhole := (markupWhole_of_nextMarkup h).whole
    refine ⟨hwhole, ?_⟩
    have hmarkup := markupWhole_of_nextMarkup h
    cases event with
    | text raw =>
      obtain ⟨cs, hcs, -⟩ := hmarkup []
      obtain ⟨-, hraw⟩ := hwhole
      simp only [source, List.append_nil] at hcs
      exact absurd (hcs ▸ List.mem_cons_self) hraw
    | _ => rintro ⟨⟩
  · next hc =>
    cases h
    refine ⟨⟨List.cons_ne_nil _ _, ?_⟩, ?_⟩
    · intro hmem
      rcases List.mem_cons.mp hmem with heq | hmem
      · exact hc heq.symm
      · have := List.all_eq_true.mp List.all_takeWhile _ hmem
        simp at this
    · intro _ d hd
      have hfirst := List.head?_dropWhile_not (· != '<') cs
      rw [hd] at hfirst
      simpa using hfirst

/-- A whole event is cut off where a text starts with it. -/
theorem Whole.next_eq (h : event.Whole) (rest : Text)
    (htext : event.isText = true → ∀ d ∈ rest.head?, d = '<') :
    ∃ c cs, event.source ++ rest = c :: cs ∧ next c cs = .ok (event, rest) := by
  cases event with
  | text raw =>
    obtain ⟨hne, hmem⟩ := h
    obtain ⟨c, cs, rfl⟩ := List.exists_cons_of_ne_nil hne
    have hc : c ≠ '<' := fun e => hmem (e ▸ List.mem_cons_self)
    have hcs : ∀ d ∈ cs, (d != '<') = true := by
      intro d hd
      rw [bne_iff_ne]
      rintro rfl
      exact hmem (List.mem_cons_of_mem c hd)
    have hrest : ∀ d ∈ rest.head?, (d != '<') = false := fun d hd => by simp [htext rfl d hd]
    refine ⟨c, cs ++ rest, rfl, ?_⟩
    rw [next, if_neg hc, takeWhile_append_eq_left hcs hrest, List.dropWhile_append_of_pos hcs]
    cases rest with
    | nil => rfl
    | cons d ds => rw [List.dropWhile_cons_of_neg (by simp [hrest d rfl])]
  | opening content =>
    obtain ⟨cs, hcs, hnext⟩ := h rest
    exact ⟨'<', cs, hcs, hnext⟩
  | empty content =>
    obtain ⟨cs, hcs, hnext⟩ := h rest
    exact ⟨'<', cs, hcs, hnext⟩
  | closing content =>
    obtain ⟨cs, hcs, hnext⟩ := h rest
    exact ⟨'<', cs, hcs, hnext⟩
  | cdata content =>
    obtain ⟨cs, hcs, hnext⟩ := h rest
    exact ⟨'<', cs, hcs, hnext⟩
  | aside raw =>
    obtain ⟨cs, hcs, hnext⟩ := h rest
    exact ⟨'<', cs, hcs, hnext⟩

/-! ## Whole texts -/

theorem lexFrom_nil (offset : Nat) : lexFrom offset [] = ([], none) := by
  rw [lexFrom]

theorem lexFrom_cons (offset : Nat) (h : next c cs = .ok (event, rest)) :
    lexFrom offset (c :: cs) =
      (event :: (lexFrom (offset + width event.source) rest).1,
        (lexFrom (offset + width event.source) rest).2) := by
  rw [lexFrom.eq_def]
  dsimp only
  split
  · next heq => cases h.symm.trans heq
  · next heq =>
    cases h.symm.trans heq
    rfl

theorem lexFrom_eq_nil {offset : Nat} {t : Text} (h : lexFrom offset t = ([], none)) : t = [] := by
  rw [lexFrom.eq_def] at h
  split at h
  · rfl
  · split at h
    · cases h
    · cases h

theorem lexFrom_eq_cons {offset : Nat} {t : Text} {events : List Event}
    (h : lexFrom offset t = (event :: events, none)) :
    ∃ c cs rest, t = c :: cs ∧ next c cs = .ok (event, rest) ∧
      lexFrom (offset + width event.source) rest = (events, none) := by
  cases t with
  | nil =>
    rw [lexFrom_nil] at h
    cases h
  | cons c cs =>
    cases hnext : next c cs with
    | error failure =>
      rw [lexFrom.eq_def] at h
      dsimp only at h
      split at h
      · cases h
      · next heq => cases hnext.symm.trans heq
    | ok cut =>
      obtain ⟨first, rest⟩ := cut
      rw [lexFrom_cons offset hnext] at h
      simp only [Prod.mk.injEq, List.cons.injEq] at h
      obtain ⟨⟨rfl, hevents⟩, hfault⟩ := h
      exact ⟨c, cs, rest, rfl, hnext, Prod.ext hevents hfault⟩

end SkinMarkup.Event
