import SkinMarkup.Proofs.Document.Steps

/-!
# Documents with issues

A builder that stops at an issue has taken in a part of the text, and what every
step keeps holds of it then (`Builder.run_prefix`). Without a byte order mark a
text shows every event where it stands (`Builder.step_ne_misaligned`). So every
such text has a tree, whatever is wrong with it: the tree of what was taken in,
with everything closed at the end of the text (`parse_of_unmarked`).
-/

namespace SkinMarkup

namespace Builder

variable {s : Source} {t : Text}

theorem openTag_ne_misaligned {b : Builder} {before content source after : Text}
    (ht : s.text = before ++ source ++ after) :
    b.openTag s (width before) content source ≠ .error .misaligned := by
  intro h
  unfold openTag at h
  rw [Source.shown_of_eq ht] at h
  split at h
  · cases h
  · simp only [bind, Except.bind] at h
    cases hattributes : attributesOf (width before) source content with
    | error cause =>
      rw [hattributes] at h
      cases h
    | ok attributes =>
      rw [hattributes] at h
      cases h

/-- An event that stands in the text at its own offset is shown there. -/
theorem step_ne_misaligned {b : Builder} {before after : Text} {event : Event}
    (ht : s.text = before ++ event.source ++ after) :
    b.step s (width before) event ≠ .error .misaligned := by
  intro h
  cases event with
  | text raw =>
    have hshown : s.shown (width before) raw = .ok raw := Source.shown_of_eq ht
    simp only [step, stepText, hshown, bind, Except.bind, pure, Except.pure] at h
    split at h
    · cases h
    · cases hcontent : unescape raw with
      | error fault =>
        rw [hcontent] at h
        cases h
      | ok content =>
        rw [hcontent] at h
        change (if b.opened.isEmpty then Except.error _ else Except.ok _) = _ at h
        split at h <;> cases h
  | opening content =>
    simp only [step, bind, Except.bind] at h
    split at h
    · next failure hopen =>
      cases h
      exact openTag_ne_misaligned ht hopen
    · cases h
  | empty content =>
    simp only [step, bind, Except.bind] at h
    split at h
    · next failure hopen =>
      cases h
      exact openTag_ne_misaligned ht hopen
    · cases h
  | closing content =>
    simp only [step, stepClosing] at h
    split at h
    · cases h
    · split at h <;> cases h
  | cdata content => cases h
  | aside raw => cases h

/-- **What every step keeps holds where a run stops**, which is behind a part of
the text. A failure is that of the next step. -/
theorem run_prefix {Inv : Text → Builder → Prop}
    (hstep : ∀ {before : Text} {c : Char} {cs rest : Text} {event : Event} {b next : Builder},
      t = before ++ c :: cs → Event.next c cs = .ok (event, rest) → Inv before b →
      b.step s (width before) event = .ok next → Inv (before ++ event.source) next)
    {before rest : Text} {b : Builder} (ht : t = before ++ rest) (hinv : Inv before b) :
    ∃ before' rest' b' failure,
      b.run s (width before) (Event.lexFrom (width before) rest).1 = (b', failure) ∧
      t = before' ++ rest' ∧ Inv before' b' ∧
      ∀ f, failure = some f → ∃ event after, rest' = event.source ++ after ∧
        b'.step s (width before') event = .error f := by
  generalize hoffset : width before = offset
  fun_induction Event.lexFrom offset rest generalizing before b with
  | case1 offset => exact ⟨before, [], b, none, rfl, ht, hinv, by rintro f ⟨⟩⟩
  | case2 offset c cs fault distance h =>
    exact ⟨before, c :: cs, b, none, rfl, ht, hinv, by rintro f ⟨⟩⟩
  | case3 offset c cs event rest hnext _ events fault hlex ih =>
    subst hoffset
    cases hone : b.step s (width before) event with
    | error f =>
      refine ⟨before, c :: cs, b, some f, by simp only [run, hone], ht, hinv, ?_⟩
      rintro f' ⟨⟩
      exact ⟨event, rest, (Event.next_source hnext).symm, hone⟩
    | ok next =>
      have ht' : t = (before ++ event.source) ++ rest := by
        rw [List.append_assoc, Event.next_source hnext, ht]
      obtain ⟨before', rest', b', failure, hrun, hsplit, hinv', hfail⟩ :=
        ih ht' (hstep ht hnext hinv hone) (width_append before event.source)
      refine ⟨before', rest', b', failure, ?_, hsplit, hinv', hfail⟩
      rw [hlex] at hrun
      simpa only [run, hone] using hrun

end Builder

/-! ## Trees of texts with issues -/

variable {t : Text} {options : ParseOptions} {document : Document}

/-- **What every step keeps holds of what has been built of a text.** -/
theorem Source.build_induction (Inv : Text → Builder → Prop) (hmark : t.head? ≠ some Source.mark)
    (hstart : Inv [] Builder.start)
    (hstep : ∀ {before : Text} {c : Char} {cs rest : Text} {event : Event} {b next : Builder},
      t = before ++ c :: cs → Event.next c cs = .ok (event, rest) → Inv before b →
      b.step (ofText t) (width before) event = .ok next → Inv (before ++ event.source) next) :
    (ofText t).build.2 ≠ some .misaligned ∧
    ∃ before rest, t = before ++ rest ∧ Inv before (ofText t).build.1 := by
  have ht : t = [] ++ t := rfl
  obtain ⟨before, rest, b, failure, hrun, hsplit, hinv, hfail⟩ :=
    Builder.run_prefix hstep ht hstart
  have hrun : Builder.start.run (ofText t) 0 (Event.lex t).1 = (b, failure) := hrun
  have hbuilt : (ofText t).build.1 = b ∧
      ((ofText t).build.2 = some .misaligned → failure = some .misaligned) := by
    rcases hlex : Event.lex t with ⟨events, fault⟩
    rw [hlex] at hrun
    simp only [build, body_ofText hmark, hlex, hrun]
    cases failure with
    | some failure => exact ⟨rfl, id⟩
    | none =>
      cases fault with
      | none => exact ⟨rfl, by rintro ⟨⟩⟩
      | some fault => exact ⟨rfl, by rintro ⟨⟩⟩
  refine ⟨?_, before, rest, hsplit, hbuilt.1 ▸ hinv⟩
  intro hmisaligned
  obtain ⟨event, after, hrest, hstep⟩ := hfail _ (hbuilt.2 hmisaligned)
  have htext : (ofText t).text = before ++ event.source ++ after := by
    rw [List.append_assoc, ← hrest]
    exact hsplit
  exact Builder.step_ne_misaligned htext hstep

/-- The tree that is left when the end of a text is reached: everything that is
open is closed there. -/
def Source.rootOf (t : Text) : Tag :=
  ((ofText t).build.1.rootClosedAt (width t)).getD (Tag.unplaced [])

theorem Source.read_of_unmarked (hmark : t.head? ≠ some Source.mark) :
    ∃ issues, (ofText t).read = .ok ⟨Source.rootOf t, issues⟩ := by
  obtain ⟨haligned, -⟩ := Source.build_induction (fun _ _ => True) hmark trivial
    (fun _ _ _ _ => trivial)
  rcases hbuild : (ofText t).build with ⟨b, failure⟩
  rw [hbuild] at haligned
  have htext : (ofText t).text = t := rfl
  simp only [Source.read, Source.rootOf, hbuild, htext]
  cases failure with
  | some failure =>
    cases failure with
    | misaligned => exact absurd rfl haligned
    | issue issue => exact ⟨_, rfl⟩
  | none =>
    cases b.rootClosedAt (width t) with
    | none => exact ⟨_, rfl⟩
    | some root => exact ⟨_, rfl⟩

/-- **A text without a byte order mark always has a tree.** Reading fails with an
issue or gives this tree. -/
theorem parse_of_unmarked (hmark : t.head? ≠ some Source.mark) (options : ParseOptions) :
    (∃ issue, parse options t = .error (.issue issue)) ∨
    ∃ issues, parse options t = .ok ⟨Source.rootOf t, issues⟩ := by
  obtain ⟨issues, hread⟩ := Source.read_of_unmarked hmark
  simp only [parse, hread, bind, Except.bind]
  split
  · exact .inl ⟨_, rfl⟩
  · exact .inr ⟨_, rfl⟩

theorem root_eq_of_parse (hmark : t.head? ≠ some Source.mark)
    (h : parse options t = .ok document) : document.root = Source.rootOf t := by
  rcases parse_of_unmarked hmark options with ⟨issue, herror⟩ | ⟨issues, hok⟩
  · cases herror.symm.trans h
  · cases hok.symm.trans h
    rfl

end SkinMarkup
