import SkinMarkup.Proofs.State.SoundEdits
import SkinMarkup.State.Start

/-!
# Roots that name the state to start in

The state that a document starts in is an attribute of the root. It is set, replaced or
removed by its spelling, and a new one goes in front of the first declared prefix. If
the attribute is found where it is, the root can be written and read again:
`Sound.exists_started`.
-/

namespace SkinMarkup

/-- Text goes in front of the name of the first attribute that declares a prefix, or there
is none. -/
theorem insertBeforeDeclaration_cases (pieces : List WrittenPiece) :
    (∀ raw, insertBeforeDeclaration raw pieces = none) ∨
      ∃ l p r, pieces = l ++ p :: r ∧ startsWith Namespace.marker p.name = true ∧
        ∀ raw, insertBeforeDeclaration raw pieces =
          some (l.flatMap WrittenPiece.source ++ (p.skipped ++ p.lead ++ raw ++
            (p.name ++ p.assign ++ p.quoted) ++ r.flatMap WrittenPiece.source)) := by
  induction pieces with
  | nil => exact Or.inl fun _ => rfl
  | cons p pieces ih =>
    by_cases hdeclares : startsWith Namespace.marker p.name = true
    · exact Or.inr ⟨[], p, pieces, rfl, hdeclares, fun raw => if_pos hdeclares⟩
    · have hrest : ∀ raw, insertBeforeDeclaration raw (p :: pieces) =
          (insertBeforeDeclaration raw pieces).map (p.source ++ ·) := fun raw => if_neg hdeclares
      rcases ih with hnone | ⟨l, q, r, rfl, hmarked, hsome⟩
      · exact Or.inl fun raw => by rw [hrest, hnone]; rfl
      · refine Or.inr ⟨p :: l, q, r, rfl, hmarked, fun raw => ?_⟩
        rw [hrest, hsome, Option.map_some, List.flatMap_cons, List.append_assoc p.source]

namespace StartTag

variable {t : StartTag} {p : WrittenPiece} {l r : List WrittenPiece} {name value : Text}
  {selfClosing : Bool}

/-- Attributes with a new one in front of another one. -/
def insertBefore (name value : Text) (p : WrittenPiece) : List WrittenPiece :=
  [⟨p.skipped, p.lead, name, ['='], value, some '"'⟩, { p with skipped := [], lead := [' '] }]

theorem flatMap_insertBefore (name value : Text) (p : WrittenPiece) :
    (insertBefore name value p).flatMap WrittenPiece.source =
      p.skipped ++ p.lead ++ (name ++ ['=', '"'] ++ value ++ ['"', ' ']) ++
        (p.name ++ p.assign ++ p.quoted) := by
  simp [insertBefore, WrittenPiece.source, WrittenPiece.extent, WrittenPiece.quoted]

/-- A sound start tag with one more attribute in front of another one. -/
theorem Sound.insertBefore (h : t.Sound) (hsplit : t.pieces = l ++ p :: r)
    (hnew : name ∉ t.pieces.map (·.name)) (hvalue : (WrittenPiece.usual name value).Sound) :
    Sound { t with pieces := l ++ (StartTag.insertBefore name value p ++ r) } := by
  have hp := h.piece (mem_of_split hsplit).1
  have hspace : MarkupSpaces [' '] := List.forall_mem_singleton.mpr rfl
  have hbehind : WrittenPiece.Sound { p with skipped := [], lead := [' '] } := by
    have hrespaced := hp.respace (List.cons_ne_nil ' ' []) hspace
    rwa [hp.regular.skipped] at hrespaced
  have hfront : WrittenPiece.Sound ⟨p.skipped, p.lead, name, ['='], value, some '"'⟩ := by
    rw [hp.regular.skipped]
    exact hvalue.respace hp.spaced hp.regular.lead
  have hmoved : Sound { t with pieces := l ++ { p with skipped := [], lead := [' '] } :: r } :=
    h.swap hsplit hbehind rfl
  refine hmoved.insert rfl hfront ?_
  rw [hsplit] at hnew
  simpa using hnew

/-- **A root is sound when it has another state to start in or none.** -/
theorem Sound.exists_started {state : Option Text} (h : t.Sound)
    (hstate : ∀ s ∈ state, isStateName s = true)
    (hreceives : state ≠ none → t.Receives Word.currentState)
    (hyields : state = none → t.Yields Word.currentState fun p => t.pieces.head? = some p)
    (selfClosing : Bool) :
    ∃ t' : StartTag, t'.Sound ∧ t'.name = t.name ∧
      startStateTag (.ofStart selfClosing) state (t.text selfClosing) = t'.text selfClosing := by
  have hword := isWord_currentState
  cases state with
  | none =>
    cases hfind : ValueSlot.find? Word.currentState (t.text selfClosing) with
    | none => exact ⟨t, h, rfl, by simp [startStateTag, hfind]⟩
    | some slot =>
      obtain ⟨l, p, r, hsplit, -, -, hremove⟩ :=
        (hyields rfl).exists_remove h.tidy.toSpaced hword hfind
      have hpieces : (l ++ r).Sublist t.pieces := by
        rw [hsplit]
        exact List.Sublist.append_left (List.sublist_cons_self p r) l
      refine ⟨_, h.of_sublist hpieces, rfl, ?_⟩
      simp only [startStateTag, hfind]
      exact hremove fun hnil => by rw [hsplit, hnil]; rfl
  | some state =>
    have hreceives := hreceives (Option.some_ne_none state)
    have hwords : ∀ word ∈ [Word.currentState], IsWord word := List.forall_mem_singleton.mpr hword
    have hlaid : t.Laid [Word.currentState] := h.laid_singleton hreceives.spares
    have hfits : Fits [Word.currentState] [] state := fits_of_isStateName (hstate state rfl)
    cases hfind : ValueSlot.find? Word.currentState (t.text selfClosing) with
    | some slot =>
      obtain ⟨l, p, r, a, b, hslot⟩ := hlaid.exists_slotIn List.mem_cons_self hword hfind
      have hrevalued : Revalued [Word.currentState] (fun _ => false) t _ :=
        hslot.revalued hwords hlaid rfl (fits_of_isStateName (hstate state rfl))
      refine ⟨_, hrevalued.sound_of_sound h, rfl, ?_⟩
      simp only [startStateTag, hfind]
      exact hslot.replace_eq (hlaid.pieces p (mem_of_split hslot.split).1).skipped state
    | none =>
      simp only [startStateTag, hfind, insertStartState, hlaid.ofText_text]
      rcases insertBeforeDeclaration_cases t.pieces with hnone | ⟨l, p, r, hsplit, -, hsome⟩
      · rw [hnone]
        obtain ⟨-, hsound, htext⟩ : Reworked [Word.currentState] (fun _ => false) t _ ∧ _ :=
          hreceives.insert h hlaid hword rfl hfits hfind
        exact ⟨_, hsound, rfl, htext⟩
      · rw [hsome]
        have hvalue : (WrittenPiece.usual Word.currentState state).Sound :=
          WrittenPiece.sound_usual hword.nonempty hword.chars
            (not_mem_of_isStateName (hstate state rfl) rfl)
            (not_mem_of_isStateName (hstate state rfl) rfl)
            (not_mem_of_isStateName (hstate state rfl) rfl)
        refine ⟨_, h.insertBefore hsplit (hreceives.not_mem h.tidy.toSpaced hfind) hvalue, rfl, ?_⟩
        simp [text, content, flatMap_insertBefore]

end StartTag

end SkinMarkup
