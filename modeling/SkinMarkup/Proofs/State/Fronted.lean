import SkinMarkup.Proofs.State.LaidEdits

/-!
# A first attribute

An attribute that is inserted into a tag without attributes goes behind the tag's name, in
front of the blanks that the name ends in (`fronted`, `Laid.insertRaw_bare`). What is left
of the name is the new name then, and the blanks stand behind the attribute. The tag is
still cut off as a whole (`Laid.cutToken_fronted`), it is divided into the attribute alone
(`Laid.ofText_fronted`), and the attribute is found and no other one is
(`Laid.exists_slot_fronted`, `Laid.find?_fronted`).
-/

namespace SkinMarkup

namespace StartTag

variable {t : StartTag} {words : List Text} {p : WrittenPiece} {selfClosing : Bool} {token : Token}
  {name value : Text}

/-- **Blanks and name characters behind the attributes of a tag do not matter to a
scan.** -/
theorem Laid.cutToken_behind (h : t.Laid words) (hne : t.content ≠ []) {behind : Text}
    (hbehind : ∀ c ∈ behind, isNameChar c = true ∨ isSpace c = true) (selfClosing : Bool) :
    Scan.cutToken ((t.content ++ behind) ++ closer selfClosing) =
      some (.ofStart selfClosing, '<' :: ((t.content ++ behind) ++ closer selfClosing), []) := by
  have hno : ∀ c, isNameChar c = false → isSpace c = false → c ∉ behind := by
    intro c hname hspace hmem
    rcases hbehind c hmem with hc | hc
    · cases hname.symm.trans hc
    · cases hspace.symm.trans hc
  have hclosed : Event.Closed (t.content ++ behind) := by
    refine h.closed_content.append (Event.closed_of_plain fun c hc => ⟨?_, ?_, ?_⟩)
    all_goals rintro rfl
    all_goals exact hno _ (by decide) (by decide) hc
  have hback : '\\' ∉ t.content ++ behind := by
    rw [List.mem_append, not_or]
    exact ⟨h.not_mem_content (by decide) (by decide) (by decide) fun p hp =>
      (h.pieces p hp).backslash, hno _ (by decide) (by decide)⟩
  have hhead : (t.content ++ behind).head? = t.content.head? := List.head?_append_of_ne_nil _ hne
  have hslash : (t.content ++ behind).head? ≠ some '/' := by
    rw [hhead]
    intro hslash
    rcases h.head?_content hslash with hd | hd <;> revert hd <;> decide
  have hlast : (t.content ++ behind).getLast? ≠ some '/' := by
    by_cases hnil : behind = []
    · rw [hnil, List.append_nil]
      exact h.getLast?_content
    · rw [List.getLast?_append_of_ne_nil _ hnil]
      exact fun hlast => hno _ (by decide) (by decide) (List.mem_of_getLast? hlast)
  rw [cutToken_of_closed hclosed hback (fun c hc => h.head?_ne (hhead ▸ hc)),
    ofElement_of_content hslash hlast fun _ => List.append_ne_nil_of_left_ne_nil hne _]

/-- A name without a value behind the attributes of a tag is passed over. -/
theorem readPieces_behind {moved blanks : Text} (hmoved : NameChars moved)
    (hblanks : Spaces blanks) (selfClosing : Bool) :
    TagText.readPieces [] (moved ++ blanks ++ closer selfClosing) =
      ([], moved ++ blanks ++ closer selfClosing) := by
  have hstop : ∀ skipped {blanks : Text}, Spaces blanks →
      TagText.readPieces skipped (blanks ++ closer selfClosing) =
        ([], skipped ++ (blanks ++ closer selfClosing)) :=
    fun skipped _ hblanks => TagText.readPieces_of_stop (TagText.step_blanks hblanks selfClosing)
  cases moved with
  | nil => exact hstop [] hblanks
  | cons c cs =>
    have hin : ∀ d ∈ c :: cs, (!TagText.endsName d) = true := fun d hd =>
      TagText.not_endsName_of_isNameChar (hmoved d hd)
    have hcloser : ∀ d ∈ (closer selfClosing).head?, isSpace d = false :=
      fun d hd => (TagText.endsName_head?_closer selfClosing d hd).2
    have hafter : ∀ d ∈ (blanks ++ closer selfClosing).head?, (!TagText.endsName d) = false := by
      intro d hd
      rw [Bool.not_eq_false']
      cases blanks with
      | nil => exact (TagText.endsName_head?_closer selfClosing d hd).1
      | cons e es =>
        cases hd
        exact TagText.endsName_of_isSpace (hblanks d List.mem_cons_self)
    have hfirst : ∀ d ∈ (c :: cs ++ (blanks ++ closer selfClosing)).head?, isSpace d = false := by
      rintro d ⟨⟩
      have hname := hmoved c List.mem_cons_self
      cases hspace : isSpace c with
      | false => rfl
      | true => cases (isNameChar_eq_false_of_isSpace hspace).symm.trans hname
    have hquestion : c ≠ '?' := ne_of_isNameChar (hmoved c List.mem_cons_self) (by decide)
    have hnil : Spaces [] := List.forall_mem_nil _
    have hstep : TagText.step (c :: cs ++ (blanks ++ closer selfClosing)) =
        .valueless (c :: cs ++ blanks) (closer selfClosing) := by
      have hlead := takeWhile_append_eq_left hnil hfirst
      have hrest := dropWhile_append_eq_right hnil hfirst
      rw [List.nil_append] at hlead hrest
      rw [TagText.step, hlead, hrest, takeWhile_append_eq_left hin hafter,
        dropWhile_append_eq_right hin hafter, if_neg (by simp [hquestion]), TagText.stepName,
        takeWhile_append_eq_left hblanks hcloser, dropWhile_append_eq_right hblanks hcloser]
      cases selfClosing <;> rfl
    rw [List.append_assoc, TagText.readPieces_of_valueless hstep, List.nil_append,
      ← List.nil_append (closer selfClosing), hstop _ hnil]
    simp

/-- A tag with its first attribute, which stands in front of the blanks that its name
ends in. -/
def fronted (p : WrittenPiece) (t : StartTag) : StartTag :=
  ⟨trimEnd t.name, [p], takeEndWhile isBlank t.name ++ t.blanks⟩

theorem name_append (t : StartTag) : trimEnd t.name ++ takeEndWhile isBlank t.name = t.name :=
  dropEndWhile_append_takeEndWhile isBlank t.name

section

variable (h : t.Laid words)

include h

theorem Laid.nameChars_trimEnd : NameChars (trimEnd t.name) :=
  fun c hc => h.name c (trimEnd_subset _ hc)

theorem Laid.nameChars_takeEndWhile : NameChars (takeEndWhile isBlank t.name) := by
  intro c hc
  apply h.name c
  rw [← name_append t]
  exact List.mem_append_right _ hc

/-- **An attribute that is inserted behind a name goes in front of the blanks that it
ends in.** -/
theorem Laid.insertRaw_bare (hnil : t.pieces = []) (p : WrittenPiece) (selfClosing : Bool) :
    insertRaw (.ofStart selfClosing) p.source (t.text selfClosing) =
      (t.fronted p).text selfClosing := by
  let trimmed : StartTag := ⟨trimEnd t.name, [], takeEndWhile isBlank t.name ++ t.blanks⟩
  have htext : t.text selfClosing = trimmed.text selfClosing := by
    rw [text, text, content, content, hnil]
    conv_lhs => rw [← name_append t]
    simp [trimmed]
  have hsolid : trimmed.Solid := last_trimEnd t.name
  have hblanks : Blanks trimmed.blanks := (blanks_takeEndWhile t.name).append h.blanks.blanks
  have hinsert := StartTag.insertRaw_text hblanks hsolid.trimEnd_upTo [p] selfClosing
  rw [List.flatMap_singleton] at hinsert
  rw [htext, hinsert]
  rfl

variable (hp : p.Laid words)

include hp

/-- **The tag is cut off as a whole.** -/
theorem Laid.cutToken_fronted (selfClosing : Bool) :
    Scan.cutToken ((t.fronted p).content ++ closer selfClosing) =
      some (.ofStart selfClosing, (t.fronted p).text selfClosing, []) := by
  let front : StartTag := ⟨trimEnd t.name, [p], []⟩
  have hfront : front.Laid words := by
    refine ⟨h.nameChars_trimEnd, fun x hx => ?_, nofun⟩
    rw [List.mem_singleton.mp hx]
    exact hp
  have hne : front.content ≠ [] := by
    simp [front, content, WrittenPiece.source, WrittenPiece.extent, hp.named]
  have hbehind : ∀ c ∈ (t.fronted p).blanks, isNameChar c = true ∨ isSpace c = true := fun c hc =>
    (List.mem_append.mp hc).imp (h.nameChars_takeEndWhile c) (h.blanks c)
  have hcontent : (t.fronted p).content = front.content ++ (t.fronted p).blanks := by
    simp [front, fronted, content]
  rw [text, hcontent]
  exact hfront.cutToken_behind hne hbehind selfClosing

theorem Laid.isCut_fronted (hkind : token.kind = .ofStart selfClosing) :
    Token.IsCut { token with text := (t.fronted p).text selfClosing } := by
  refine ⟨(t.fronted p).content ++ closer selfClosing, rfl, ?_⟩
  rw [hkind]
  exact h.cutToken_fronted hp selfClosing

/-- **The tag is divided into its attribute and the rest.** -/
theorem Laid.ofText_fronted (selfClosing : Bool) :
    TagText.ofText ((t.fronted p).text selfClosing) =
      ⟨'<' :: trimEnd t.name, [p], (t.fronted p).blanks ++ closer selfClosing⟩ := by
  have hin : ∀ c ∈ trimEnd t.name, (!TagText.endsName c) = true := fun c hc =>
    TagText.not_endsName_of_isNameChar (h.nameChars_trimEnd c hc)
  have hafter : ∀ c ∈ (p.source ++ ((t.fronted p).blanks ++ closer selfClosing)).head?,
      (!TagText.endsName c) = false := by
    obtain ⟨d, ds, hlead⟩ := List.exists_cons_of_ne_nil hp.spaced
    intro c hc
    rw [WrittenPiece.source, hp.skipped, WrittenPiece.extent, hlead] at hc
    cases hc
    rw [TagText.endsName_of_isSpace (hp.lead _ (hlead ▸ List.mem_cons_self))]
    rfl
  have hsplit : (t.fronted p).content ++ closer selfClosing =
      trimEnd t.name ++ (p.source ++ ((t.fronted p).blanks ++ closer selfClosing)) := by
    simp [fronted, content]
  rw [text, hsplit, TagText.ofText, takeWhile_append_eq_left hin hafter,
    dropWhile_append_eq_right hin hafter,
    TagText.readPieces_of_piece (TagText.step_lexed hp.toProper.lexed _)]
  have hread : TagText.readPieces [] ((t.fronted p).blanks ++ closer selfClosing) =
      ([], (t.fronted p).blanks ++ closer selfClosing) :=
    readPieces_behind h.nameChars_takeEndWhile h.blanks selfClosing
  have hskipped : { p with skipped := [] } = p := by rw [← hp.skipped]
  rw [hread, hskipped]

theorem Laid.name_fronted (hkind : token.kind = .ofStart selfClosing) :
    Token.name { token with text := (t.fronted p).text selfClosing } = trimEnd t.name := by
  refine name_of_text (t := t.fronted p) h.nameChars_trimEnd ?_ hkind rfl
  obtain ⟨d, ds, hlead⟩ := List.exists_cons_of_ne_nil hp.spaced
  intro c hc
  rw [fronted, List.flatMap_singleton, WrittenPiece.source, hp.skipped, WrittenPiece.extent,
    hlead] at hc
  cases hc
  exact hp.lead _ (hlead ▸ List.mem_cons_self)

end

/-! ## What is found -/

/-- **The attribute is found by its spelling.** -/
theorem Laid.exists_slot_fronted (h : t.Laid words) (name : Text) (hvalue : '"' ∉ value)
    (selfClosing : Bool) :
    ∃ slot, ValueSlot.find? name ((t.fronted (.usual name value)).text selfClosing) = some slot ∧
      slot.value = value := by
  let behind := value ++ '"' :: ((t.fronted (.usual name value)).blanks ++ closer selfClosing)
  have hsplit : (t.fronted (.usual name value)).text selfClosing =
      ('<' :: trimEnd t.name) ++ (ValueSlot.opener name '"' ++ behind) := by
    simp [text, content, fronted, WrittenPiece.source_usual, attributeText, ValueSlot.opener, behind]
  have hhead : ' ' ∉ '<' :: trimEnd t.name := by
    have hnot := gentle_id.not_mem_head h.nameChars_trimEnd.unended
    rwa [List.map_id] at hnot
  have hcut : cutAtWord (ValueSlot.opener name '"')
      ((t.fronted (.usual name value)).text selfClosing) = some ('<' :: trimEnd t.name, behind) := by
    rw [hsplit]
    exact NoStart.cutAtWord_of_word (List.cons_ne_nil _ _) (noStart_of_not_mem hhead)
  rw [ValueSlot.find?, hcut]
  dsimp only
  rw [ValueSlot.ofOpener, cutAt_append hvalue]
  exact ⟨_, rfl, rfl⟩

/-- **Nothing else is found.** -/
theorem Laid.find?_fronted (h : t.Laid words) (hp : p.Laid [name]) (hname : IsWord name)
    (hne : p.name ≠ name) (selfClosing : Bool) :
    ValueSlot.find? name ((t.fronted p).text selfClosing) = none := by
  have hspares : Spares name p.value := hp.spares name (by simp)
  have hend : (⟨[], [], t.blanks⟩ : StartTag).Spaced :=
    ⟨List.forall_mem_nil _, List.forall_mem_nil _, List.forall_mem_nil _, List.nodup_nil, h.blanks⟩
  have hnone : ∀ {f : Char → Char} {ending : Text}, Gentle f → Spelling name ending →
      Unspelled name ending (p.value.map f) →
        cutAtWord (' ' :: (name ++ ending)) (((t.fronted p).text selfClosing).map f) = none := by
    intro f ending hf hspell hunspelled
    have hsplit : (t.fronted p).text selfClosing = ('<' :: trimEnd t.name) ++ (p.source ++
        (takeEndWhile isBlank t.name ++ (⟨[], [], t.blanks⟩ : StartTag).onFrom selfClosing [])) := by
      simp [text, content, fronted, onFrom]
    have hmoved : ' ' ∉ (takeEndWhile isBlank t.name).map f := by
      rw [hf.map_name h.nameChars_takeEndWhile]
      intro hmem
      exact ne_of_isNameChar (h.nameChars_takeEndWhile _ hmem) (by decide) rfl
    rw [hsplit, List.map_append, List.map_append, List.map_append]
    refine NoStart.cutAtWord_eq_none (List.cons_ne_nil _ _) (NoStart.append ?_ (NoStart.append ?_
      (NoStart.append ?_ ?_)))
    · exact noStart_of_not_mem (hf.not_mem_head h.nameChars_trimEnd.unended)
    · exact hspell.noStart_piece hf hp.toProper hp.spaced hunspelled fun heq => absurd heq hne
    · exact noStart_of_not_mem hmoved
    · exact hend.noStart_onFrom hf hspell (List.Subset.refl _) List.not_mem_nil
        (List.forall_mem_nil _) selfClosing
  refine ValueSlot.find?_of_unspelled (fun quote => ?_) fun c hc => ?_
  · have hplain := hnone gentle_id (spelling_opener hname.nonempty hname.chars (Or.inl rfl) [quote])
      (hspares.unspelled_id hname.chars [quote])
    rwa [List.map_id] at hplain
  · exact hnone gentle_asSpace (spelling_opener hname.nonempty hname.chars hc [])
      (hspares.unspelled_asSpace hc [])

end StartTag

end SkinMarkup
