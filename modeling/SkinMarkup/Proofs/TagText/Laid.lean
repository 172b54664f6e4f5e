import SkinMarkup.Proofs.Scan.Recut
import SkinMarkup.Proofs.State.LongerLists
import SkinMarkup.Proofs.TagText.Found

/-!
# Start tags as they are laid out

A start tag that was scanned and not parsed may have an attribute twice and any
blanks between its parts. It is laid out if it consists of a name and of proper
attributes with blanks before them, and if nothing in a value looks like an attribute
of a name that is looked up. Then a slot that is found for such a word stands in the
value of an attribute of that name (`Laid.exists_slotIn`), and a scan cuts the tag
off as a whole (`Laid.cutToken_text`).
-/

namespace SkinMarkup

/-- An attribute with blanks before it in whose value nothing looks like an attribute
with one of the names `words`. -/
structure WrittenPiece.Laid (words : List Text) (p : WrittenPiece) : Prop extends p.Proper where
  spaced : p.lead ≠ []
  backslash : '\\' ∉ p.value
  spares : ∀ word ∈ words, Spares word p.value

namespace StartTag

/-- A start tag of a name and attributes that are laid out. -/
structure Laid (words : List Text) (t : StartTag) : Prop where
  name : NameChars t.name
  pieces : ∀ p ∈ t.pieces, p.Laid words
  blanks : Spaces t.blanks

variable {t : StartTag} {words : List Text} {l r : List WrittenPiece} {p : WrittenPiece}
  {selfClosing : Bool}

/-- The written form of a tag is divided into what it was made of. -/
theorem Laid.ofText_text (h : t.Laid words) (selfClosing : Bool) :
    TagText.ofText (t.text selfClosing) =
      ⟨'<' :: t.name, t.pieces, t.blanks ++ closer selfClosing⟩ :=
  ofText_text_of_lexed h.name.unended (fun p hp => (h.pieces p hp).toProper.lexed)
    (fun p hp => (h.pieces p (List.mem_of_mem_head? hp)).spaced) h.blanks selfClosing

/-- A tidy tag without backslashes is laid out. -/
theorem Tidy.laid (h : t.Tidy) (hback : '\\' ∉ t.content)
    (hspares : ∀ p ∈ t.pieces, ∀ word ∈ words, Spares word p.value) : t.Laid words where
  name := h.name
  pieces := fun p hp => ⟨h.proper hp, h.spaced p hp,
    fun hmem => hback (mem_content_of_mem_value hp hmem), hspares p hp⟩
  blanks := h.regular.blanks.spaces

/-! ## The tag as a token -/

theorem closed_of_spaces {s : Text} (h : Spaces s) : Event.Closed s := by
  refine Event.closed_of_plain fun c hc => ?_
  have hspace := h c hc
  refine ⟨?_, ?_, ?_⟩ <;> rintro rfl <;> revert hspace <;> decide

theorem closed_of_nameChars {s : Text} (h : NameChars s) : Event.Closed s :=
  Event.closed_of_plain fun c hc => ⟨ne_of_isNameChar (h c hc) (by decide),
    ne_of_isNameChar (h c hc) (by decide), ne_of_isNameChar (h c hc) (by decide)⟩

theorem closed_source (h : p.Proper) : Event.Closed p.source := by
  obtain ⟨m, n, q, hsource, hm, hn, -, -, hq, hvalue⟩ := h.exists_source
  have hsplit : p.source =
      p.lead ++ (p.name ++ (m ++ (['='] ++ (n ++ (q :: p.value ++ [q]))))) := by
    rw [hsource]
    simp
  rw [hsplit]
  exact (closed_of_spaces h.lead).append ((closed_of_nameChars h.name).append
    ((closed_of_spaces hm).append ((Event.closed_of_plain (by simp)).append
      ((closed_of_spaces hn).append (Event.closed_quoted hq hvalue)))))

/-- A tag with closed content is cut off as a whole. -/
theorem cutToken_of_closed {content : Text} (hclosed : Event.Closed content)
    (hback : '\\' ∉ content) (hhead : ∀ c ∈ content.head?, c ≠ '!' ∧ c ≠ '?') (selfClosing : Bool) :
    Scan.cutToken (content ++ closer selfClosing) =
      some (.ofElement ('<' :: (content ++ closer selfClosing)),
        '<' :: (content ++ closer selfClosing), []) := by
  obtain ⟨slash, hslash, hcloser⟩ : ∃ slash, Event.Closed slash ∧
      closer selfClosing = slash ++ ['>'] := by
    cases selfClosing with
    | false => exact ⟨[], Event.closed_nil, rfl⟩
    | true => exact ⟨['/'], Event.closed_of_plain (by simp), rfl⟩
  have hfirst : ∀ c, c = '!' ∨ c = '?' → (content ++ closer selfClosing).head? ≠ some c := by
    intro c hc heq
    cases content with
    | cons d ds =>
      obtain ⟨hd, hd'⟩ := hhead d rfl
      rw [← Option.some.inj heq] at hc
      exact hc.elim hd hd'
    | nil => cases selfClosing <;> rcases hc with rfl | rfl <;> cases heq
  have hquote : NoEscapedQuote ('<' :: (content ++ closer selfClosing)) := by
    apply noEscapedQuote_of_not_mem
    cases selfClosing <;> simp [closer, hback]
  rw [Scan.cutToken_of_head? (hfirst '!' (Or.inl rfl)) (hfirst '?' (Or.inr rfl)), Scan.cutTagToken,
    Scan.cutElement_of_cutTag hquote, hcloser, ← List.append_assoc, (hclosed.append hslash).cutTag_eq]
  simp

/-- A tag is of the kind that its closer says, if it has a name and no other slashes
next to its brackets. -/
theorem ofElement_of_content {content : Text} (hhead : content.head? ≠ some '/')
    (hlast : content.getLast? ≠ some '/') (hne : selfClosing = true → content ≠ []) :
    TokenKind.ofElement ('<' :: (content ++ closer selfClosing)) = .ofStart selfClosing := by
  have hstarts : startsWith ['<', '/'] ('<' :: (content ++ closer selfClosing)) = false := by
    rw [Scan.startsWith_slash, decide_eq_false_iff_not, List.head?_append]
    intro heq
    cases hfirst : content.head? with
    | some d =>
      rw [hfirst] at heq hhead
      exact hhead heq
    | none =>
      rw [hfirst] at heq
      cases selfClosing with
      | false => cases heq
      | true => exact hne rfl (List.head?_eq_none_iff.mp hfirst)
  have hends : endsWith ['/', '>'] ('<' :: (content ++ closer selfClosing)) = selfClosing := by
    cases selfClosing with
    | false =>
      have hcloser : '<' :: (content ++ closer false) = '<' :: content ++ ['>'] := rfl
      rw [hcloser, Scan.endsWith_slash, Scan.isSome_before?_slash, List.head?_reverse]
      exact decide_eq_false hlast
    | true =>
      have hcloser : '<' :: (content ++ closer true) = '<' :: (content ++ ['/']) ++ ['>'] := by
        simp [closer]
      rw [hcloser, Scan.endsWith_slash, Scan.isSome_before?_slash]
      simp
  rw [TokenKind.ofElement, hstarts, hends]
  cases selfClosing <;> rfl

theorem not_mem_source {c : Char} (h : p.Proper) (hname : isNameChar c = false)
    (hspace : isSpace c = false) (hsign : c ≠ '=' ∧ c ≠ '"' ∧ c ≠ '\'') (hvalue : c ∉ p.value) :
    c ∉ p.source := by
  obtain ⟨m, n, q, hsource, hm, hn, -, -, hq, -⟩ := h.exists_source
  have hspaces : ∀ {s : Text}, Spaces s → c ∉ s := by
    intro s hs hmem
    cases hspace.symm.trans (hs c hmem)
  have hchars : c ∉ p.name := by
    intro hmem
    cases hname.symm.trans (h.name c hmem)
  have hquote : c ≠ q := by
    rcases hq with rfl | rfl
    · exact hsign.2.1
    · exact hsign.2.2
  rw [hsource]
  simp [hspaces h.lead, hspaces hm, hspaces hn, hchars, hsign.1, hquote, hvalue]

section

variable (h : t.Laid words)

include h

theorem Laid.closed_content : Event.Closed t.content := by
  refine (closed_of_nameChars h.name).append (Event.Closed.append ?_ (closed_of_spaces h.blanks))
  have hpieces := h.pieces
  generalize t.pieces = pieces at hpieces
  induction pieces with
  | nil => exact Event.closed_nil
  | cons p pieces ih =>
    obtain ⟨hp, hpieces⟩ := List.forall_mem_cons.mp hpieces
    exact (closed_source hp.toProper).append (ih hpieces)

theorem Laid.not_mem_content {c : Char} (hname : isNameChar c = false)
    (hspace : isSpace c = false) (hsign : c ≠ '=' ∧ c ≠ '"' ∧ c ≠ '\'')
    (hvalue : ∀ p ∈ t.pieces, c ∉ p.value) : c ∉ t.content := by
  rw [mem_content]
  rintro (hmem | ⟨p, hp, hmem⟩ | hmem)
  · cases hname.symm.trans (h.name c hmem)
  · exact not_mem_source (h.pieces p hp).toProper hname hspace hsign (hvalue p hp) hmem
  · cases hspace.symm.trans (h.blanks c hmem)

/-- Blanks follow the name of a tag. -/
theorem Laid.isSpace_of_head? {c : Char}
    (hc : c ∈ (t.pieces.flatMap WrittenPiece.source ++ t.blanks).head?) : isSpace c = true := by
  cases hpieces : t.pieces with
  | nil =>
    rw [hpieces, List.flatMap_nil, List.nil_append] at hc
    exact h.blanks c (List.mem_of_mem_head? hc)
  | cons p ps =>
    have hp := h.pieces p (hpieces ▸ List.mem_cons_self)
    obtain ⟨d, ds, hlead⟩ := List.exists_cons_of_ne_nil hp.spaced
    rw [hpieces, List.flatMap_cons, WrittenPiece.source, hp.skipped, WrittenPiece.extent,
      hlead] at hc
    cases hc
    exact hp.lead c (hlead ▸ List.mem_cons_self)

/-- What stands at the start of a tag behind its `<`. -/
theorem Laid.head?_content {c : Char} (hc : c ∈ t.content.head?) :
    isNameChar c = true ∨ isSpace c = true := by
  rw [content] at hc
  cases hname : t.name with
  | cons d ds =>
    rw [hname] at hc
    cases hc
    exact Or.inl (h.name c (hname ▸ List.mem_cons_self))
  | nil =>
    rw [hname, List.nil_append] at hc
    exact Or.inr (h.isSpace_of_head? hc)

theorem Laid.head?_ne {c : Char} (hc : c ∈ t.content.head?) : c ≠ '!' ∧ c ≠ '?' := by
  have hno : ∀ d, isNameChar d = false → isSpace d = false → c ≠ d := by
    rintro d hname hspace rfl
    rcases h.head?_content hc with hd | hd
    · cases hname.symm.trans hd
    · cases hspace.symm.trans hd
  exact ⟨hno '!' (by decide) (by decide), hno '?' (by decide) (by decide)⟩

/-- What stands at the end of a tag before its closer. -/
theorem Laid.getLast?_content : t.content.getLast? ≠ some '/' := by
  intro hlast
  have hmem := List.mem_of_getLast? hlast
  rw [content] at hlast
  by_cases hblanks : t.blanks = []
  · rw [hblanks, List.append_nil] at hlast
    rcases List.eq_nil_or_concat' t.pieces with hnil | ⟨front, p, hpieces⟩
    · rw [hnil, List.flatMap_nil, List.append_nil] at hlast
      exact ne_of_isNameChar (h.name '/' (List.mem_of_getLast? hlast)) (by decide) rfl
    · obtain ⟨m, n, q, hsource, -, -, -, -, hq, -⟩ :=
        (h.pieces p (by simp [hpieces])).toProper.exists_source
      have hend : t.name ++ (front ++ [p]).flatMap WrittenPiece.source =
          (t.name ++ (front.flatMap WrittenPiece.source ++ (p.lead ++ (p.name ++ (m ++
            '=' :: (n ++ (q :: p.value))))))) ++ [q] := by
        simp [hsource]
      rw [hpieces, hend, List.getLast?_concat, Option.some.injEq] at hlast
      subst hlast
      rcases hq with hq | hq <;> cases hq
  · rw [← List.append_assoc, List.getLast?_append_of_ne_nil _ hblanks] at hlast
    have := h.blanks '/' (List.mem_of_getLast? hlast)
    revert this
    decide

/-- **A scan cuts the tag off as a whole.** -/
theorem Laid.cutToken_text (selfClosing : Bool) :
    Scan.cutToken (t.content ++ closer selfClosing) =
      some (.ofElement (t.text selfClosing), t.text selfClosing, []) := by
  refine cutToken_of_closed h.closed_content ?_ (fun c hc => h.head?_ne hc) selfClosing
  exact h.not_mem_content (by decide) (by decide) (by decide) fun p hp => (h.pieces p hp).backslash

/-- A tag is of the kind that its closer says, unless it has no name and no
attributes. -/
theorem Laid.ofElement_text (hne : selfClosing = true → t.content ≠ []) :
    TokenKind.ofElement (t.text selfClosing) = .ofStart selfClosing := by
  refine ofElement_of_content (fun hslash => ?_) h.getLast?_content hne
  rcases h.head?_content hslash with hd | hd <;> revert hd <;> decide

end

end StartTag

end SkinMarkup
