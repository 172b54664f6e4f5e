import SkinMarkup.Proofs.TagText.Laid

/-!
# Slots in a tag as it is laid out

In a tag that is laid out a word is spelled only as the name of an attribute, if no
value mentions it (`Laid.exists_of_spelled`). So whatever slot is found for the word
stands in the value of such an attribute (`Laid.exists_slotIn`), the first one or a
later one of that name. It is the whole value if there are no quotes in the value
(`SlotIn.eq_nil`).
-/

namespace SkinMarkup

namespace StartTag

variable {t : StartTag} {words : List Text} {l r : List WrittenPiece} {p : WrittenPiece}
  {selfClosing : Bool} {f : Char → Char} {name ending x y : Text}

/-! ## Where a name is spelled -/

/-- Among attributes a name is spelled as the name of one of them. -/
theorem exists_of_spelled_onFrom {pieces : List WrittenPiece} (hf : Gentle f)
    (hspell : Spelling name ending) (hpieces : ∀ p ∈ pieces, p.Proper ∧ p.lead ≠ [])
    (hblanks : Spaces t.blanks) (hunspelled : ∀ p ∈ pieces, Unspelled name ending (p.value.map f))
    (htext : (t.onFrom selfClosing pieces).map f = x ++ (' ' :: (name ++ ending) ++ y)) :
    ∃ l p r b e, pieces = l ++ p :: r ∧ p.name = name ∧ p.lead = b ++ [e] ∧ f e = ' ' ∧
      x = (l.flatMap WrittenPiece.source ++ b).map f ∧
      (p.assign ++ (p.quoted ++ t.onFrom selfClosing r)).map f = ending ++ y := by
  induction pieces generalizing x with
  | nil =>
    have hend : ∀ c ∈ (t.onFrom selfClosing []).map f, isNameChar c = false := by
      intro c hc
      rw [onFrom, List.flatMap_nil, List.nil_append, List.map_append, List.mem_append] at hc
      rcases hc with hc | hc
      · exact hf.isNameChar_of_mem_spaces hblanks c hc
      · obtain ⟨d, hd, rfl⟩ := List.mem_map.mp hc
        have hsign : d = '/' ∨ d = '>' := by
          cases selfClosing <;> simp [closer] at hd <;> tauto
        rcases hsign with rfl | rfl <;> rw [hf.map_sign (by simp)] <;> decide
    have hnone : NoStart (' ' :: (name ++ ending)) ((t.onFrom selfClosing []).map f) [] :=
      hspell.noStart_blanks hend (by rintro c ⟨⟩)
    rw [← List.append_nil ((t.onFrom selfClosing []).map f)] at htext
    obtain ⟨x', -, hx'⟩ := hnone.exists_of_append_eq htext
    simp at hx'
  | cons p pieces ih =>
    obtain ⟨⟨hp, hlead⟩, hpieces⟩ := List.forall_mem_cons.mp hpieces
    obtain ⟨hvalue, hunspelled⟩ := List.forall_mem_cons.mp hunspelled
    have hcons : t.onFrom selfClosing (p :: pieces) = p.source ++ t.onFrom selfClosing pieces := by
      simp [onFrom]
    rw [hcons, List.map_append] at htext
    rcases hspell.starts_in_piece hf hp hlead hvalue htext with
      ⟨hname, b, e, hbe, he, rfl, hending⟩ | ⟨x', rfl, htail⟩
    · refine ⟨[], p, pieces, b, e, rfl, hname, hbe, he, rfl, ?_⟩
      rw [← List.append_assoc, List.map_append]
      exact hending
    · obtain ⟨l, p', r, b, e, rfl, hname, hbe, he, rfl, hending⟩ := ih hpieces hunspelled htail
      exact ⟨p :: l, p', r, b, e, rfl, hname, hbe, he, by simp, hending⟩

/-- **In a tag a name is spelled as the name of an attribute.** -/
theorem Laid.exists_of_spelled (h : t.Laid words) (hf : Gentle f) (hspell : Spelling name ending)
    (hunspelled : ∀ p ∈ t.pieces, Unspelled name ending (p.value.map f))
    (htext : (t.text selfClosing).map f = x ++ (' ' :: (name ++ ending) ++ y)) :
    ∃ l p r b e, t.pieces = l ++ p :: r ∧ p.name = name ∧ p.lead = b ++ [e] ∧ f e = ' ' ∧
      x = (t.upTo l ++ b).map f ∧
      (p.assign ++ (p.quoted ++ t.onFrom selfClosing r)).map f = ending ++ y := by
  have hsplit : t.text selfClosing = ('<' :: t.name) ++ t.onFrom selfClosing t.pieces := by
    simp [text, content, onFrom]
  rw [hsplit, List.map_append] at htext
  have hhead := hf.not_mem_head h.name.unended
  obtain ⟨x', rfl, htail⟩ := (noStart_of_not_mem hhead).exists_of_append_eq htext
  obtain ⟨l, p, r, b, e, hpieces, hname, hbe, he, rfl, hending⟩ := exists_of_spelled_onFrom hf hspell
    (fun p hp => ⟨(h.pieces p hp).toProper, (h.pieces p hp).spaced⟩) h.blanks hunspelled htail
  exact ⟨l, p, r, b, e, hpieces, hname, hbe, he, by simp [upTo], hending⟩

/-! ## Slots -/

/-- A slot in the value of the attribute `p`, between `a` and `b`. -/
structure SlotIn (selfClosing : Bool) (t : StartTag) (name : Text) (slot : ValueSlot)
    (l : List WrittenPiece) (p : WrittenPiece) (r : List WrittenPiece) (a b : Text) : Prop where
  split : t.pieces = l ++ p :: r
  name : p.name = name
  value : p.value = a ++ slot.value ++ b
  opened : slot.before ++ slot.lead =
    t.upTo l ++ (p.lead ++ (p.name ++ (p.assign ++ p.quote.toList))) ++ a
  after : slot.after = b ++ (p.quote.toList ++ t.onFrom selfClosing r)
  trimmed : trimEnd slot.before = trimEnd (t.upTo l)
  last : ∀ c ∈ a.getLast?, c = '"' ∨ c = '\''
  first : ∀ c ∈ b.head?, c = '"' ∨ c = '\''

/-- Blanks in front of what is no blank are none. -/
theorem eq_nil_of_starts {blanks : Text} {c : Char} (hblanks : Spaces blanks)
    (hc : isSpace c = false) (h : blanks ++ x = c :: y) : blanks = [] ∧ x = c :: y := by
  cases blanks with
  | nil => exact ⟨rfl, h⟩
  | cons d blanks =>
    obtain ⟨rfl, -⟩ := List.cons.inj h
    cases hc.symm.trans (hblanks d List.mem_cons_self)

section

variable (h : t.Laid words) (hword : name ∈ words) (hname : IsWord name)

include h hword hname

/-- A slot in the usual spelling. -/
theorem Laid.exists_slotIn_of_opener {quote : Char} (hquote : quote = '"' ∨ quote = '\'')
    {before after : Text} {slot : ValueSlot}
    (hcut : cutAtWord (ValueSlot.opener name quote) (t.text selfClosing) = some (before, after))
    (hslot : ValueSlot.ofOpener name quote before after = some slot) :
    ∃ l p r, SlotIn selfClosing t name slot l p r [] [] := by
  have htext := cutAtWord_eq_some hcut
  rw [← List.map_id (t.text selfClosing)] at htext
  have hspell : Spelling name ['=', quote] :=
    spelling_opener hname.nonempty hname.chars (Or.inl rfl) [quote]
  obtain ⟨l, p, r, b, e, hsplit, rfl, hlead, he, hbefore, hending⟩ := h.exists_of_spelled gentle_id
    hspell (fun p hp => ((h.pieces p hp).spares _ hword).unspelled_id hname.chars [quote])
    htext
  have hp := h.pieces p (mem_of_split hsplit).1
  obtain ⟨m, n, q, -, hm, hn, hassign, hq, hquotes, hvalue⟩ := hp.toProper.exists_source
  -- The equals sign comes at once, and so does the quote.
  rw [List.map_id, WrittenPiece.quoted, hassign, hq] at hending
  simp only [List.append_assoc, List.cons_append] at hending
  obtain ⟨rfl, hequals⟩ := eq_nil_of_starts hm (by decide) hending
  obtain ⟨rfl, hopened⟩ := eq_nil_of_starts hn (by rcases hquote with rfl | rfl <;> rfl)
    (List.cons.inj hequals).2
  obtain ⟨rfl, hafter⟩ := List.cons.inj hopened
  replace hafter : p.value ++ q :: t.onFrom selfClosing r = after := hafter
  rw [ValueSlot.ofOpener, ← hafter, cutAt_append hvalue, Option.map_some, Option.some.injEq] at hslot
  rw [List.map_id] at hbefore
  subst hslot hbefore
  refine ⟨l, p, r, hsplit, rfl, by simp, ?_, by simp [hq], ?_, by simp, by simp⟩
  · dsimp only
    rw [← List.append_assoc, dropEndWhile_append_takeEndWhile, hlead, hassign, hq,
      show e = ' ' from he]
    simp [ValueSlot.opener]
  · dsimp only
    rw [trimEnd_dropEndWhile]
    refine trimEnd_append_blanks _ (Spaces.blanks fun c hc => hp.lead c ?_)
    rw [hlead]
    exact List.mem_append_left _ hc

/-- What is located is an attribute up to its equals sign. -/
theorem Laid.exists_of_locate {start equals : Nat}
    (hlocate : ValueSlot.locate name (ValueSlot.flatten (t.text selfClosing)) =
      some (start, equals)) :
    ∃ l p r b e m n, t.pieces = l ++ p :: r ∧ p.name = name ∧ p.lead = b ++ [e] ∧
      p.assign = m ++ '=' :: n ∧ Spaces n ∧ start = (t.upTo l ++ b).length ∧
      equals = (t.upTo l ++ b ++ (e :: (p.name ++ (m ++ ['='])))).length := by
  have hspelled := fun (c : Char) (hc : c = '=' ∨ c = ' ') {x y : Text}
      (htext : ValueSlot.flatten (t.text selfClosing) = x ++ (' ' :: (name ++ [c]) ++ y)) =>
    h.exists_of_spelled gentle_asSpace (spelling_opener hname.nonempty hname.chars hc [])
      (fun p hp => ((h.pieces p hp).spares _ hword).unspelled_asSpace hc []) htext
  rw [ValueSlot.locate] at hlocate
  split at hlocate
  · next before after hcut =>
    obtain ⟨l, p, r, b, e, hsplit, rfl, hlead, he, rfl, hending⟩ :=
      hspelled '=' (Or.inl rfl) (cutAtWord_eq_some hcut)
    obtain ⟨m, n, q, -, hm, hn, hassign, -, -, -⟩ :=
      (h.pieces p (mem_of_split hsplit).1).toProper.exists_source
    have hnil : m = [] := by
      cases m with
      | nil => rfl
      | cons c m =>
        rw [hassign, List.cons_append, List.cons_append, List.map_cons,
          asSpace_of_isSpace (hm c List.mem_cons_self)] at hending
        cases (List.cons.inj hending).1
    subst hnil
    cases hlocate
    refine ⟨l, p, r, b, e, [], n, hsplit, rfl, hlead, hassign, hn, by simp, ?_⟩
    simp
    omega
  · obtain ⟨⟨before, after⟩, hcut, hlocate⟩ := Option.bind_eq_some_iff.mp hlocate
    obtain ⟨⟨middle, rest⟩, hmiddle, hlocate⟩ := Option.bind_eq_some_iff.mp hlocate
    cases hlocate
    have htext := cutAtWord_eq_some hcut
    obtain ⟨l, p, r, b, e, hsplit, rfl, hlead, he, rfl, hending⟩ := hspelled ' ' (Or.inr rfl) htext
    obtain ⟨m, n, q, -, hm, hn, hassign, -, -, -⟩ :=
      (h.pieces p (mem_of_split hsplit).1).toProper.exists_source
    -- The first equals sign behind the name is that of the attribute.
    have hdrop : (ValueSlot.flatten (t.text selfClosing)).drop ((t.upTo l ++ b).map asSpace).length =
        (' ' :: (p.name ++ m.map asSpace)) ++
          '=' :: (n ++ (p.quoted ++ t.onFrom selfClosing r)).map asSpace := by
      have hsign : asSpace '=' = '=' := rfl
      have hbehind : ' ' :: (p.name ++ [' ']) ++ after = ' ' :: (p.name ++ ([' '] ++ after)) := by simp
      rw [htext, List.drop_left]
      refine hbehind.trans ?_
      rw [← hending, hassign]
      simp [hsign]
    rw [hdrop, cutAt_append (equals_not_mem hname.chars hm)] at hmiddle
    cases hmiddle
    refine ⟨l, p, r, b, e, m, n, hsplit, rfl, hlead, hassign, hn, by simp, ?_⟩
    simp
    omega

/-- **What is found for a word stands in the value of an attribute of that name.** -/
theorem Laid.exists_slotIn {slot : ValueSlot}
    (hfind : ValueSlot.find? name (t.text selfClosing) = some slot) :
    ∃ l p r a b, SlotIn selfClosing t name slot l p r a b := by
  have henclosed := ValueSlot.enclosed_of_find? hfind
  rw [ValueSlot.find?] at hfind
  split at hfind
  · next hcut =>
    obtain ⟨l, p, r, hslot⟩ := h.exists_slotIn_of_opener hword hname (Or.inl rfl) hcut hfind
    exact ⟨l, p, r, [], [], hslot⟩
  split at hfind
  · next hcut =>
    obtain ⟨l, p, r, hslot⟩ := h.exists_slotIn_of_opener hword hname (Or.inr rfl) hcut hfind
    exact ⟨l, p, r, [], [], hslot⟩
  have hparts := hfind
  rw [ValueSlot.findRelaxed] at hparts
  obtain ⟨⟨start, equals⟩, hlocate, -⟩ := Option.bind_eq_some_iff.mp hparts
  obtain ⟨l, p, r, b, e, m, n, hsplit, rfl, hlead, hassign, hn, rfl, rfl⟩ :=
    h.exists_of_locate hword hname hlocate
  obtain ⟨hpieces, -, hr⟩ := mem_of_split hsplit
  have hp := h.pieces p hpieces
  obtain ⟨q, hquote, -, -⟩ := hp.quoted
  have htext := text_eq_of_parts hsplit hp.skipped hlead hassign hquote selfClosing
  rw [htext] at hlocate hfind
  rw [ValueSlot.findRelaxed_of_locate hlocate, Option.map_eq_some_iff] at hfind
  obtain ⟨⟨pad, length⟩, hmeasure, hslot⟩ := hfind
  -- What is measured is a part of the value.
  obtain ⟨hpad, hlength⟩ := le_of_measure hn
    (quotes_onFrom (fun x hx => (h.pieces x (hr hx)).toProper) h.blanks selfClosing) hmeasure
  obtain ⟨skip, rfl⟩ := Nat.exists_eq_add_of_le hpad
  dsimp only at hslot
  rw [take_quoted (by omega), drop_quoted (by omega), Nat.add_assoc (n.length + 1) skip length,
    drop_quoted (by omega), List.take_append_of_le_length (by rw [List.length_drop]; omega)] at hslot
  have hopened : slot.before ++ slot.lead =
      t.upTo l ++ (p.lead ++ (p.name ++ (p.assign ++ p.quote.toList))) ++ p.value.take skip := by
    rw [← hslot, hlead, hassign, hquote]
    simp
  have hafter : slot.after =
      p.value.drop (skip + length) ++ (p.quote.toList ++ t.onFrom selfClosing r) := by
    rw [← hslot, hquote]
    rfl
  refine ⟨l, p, r, p.value.take skip, p.value.drop (skip + length), hsplit, rfl, ?_, hopened, hafter,
    ?_, henclosed.quote_of_getLast? hopened, henclosed.quote_of_head? hafter⟩
  · rw [← hslot]
    dsimp only
    rw [← List.drop_drop, List.append_assoc, List.take_append_drop, List.take_append_drop]
  · rw [← hslot]
    refine trimEnd_append_blanks _ (Spaces.blanks fun c hc => hp.lead c ?_)
    rw [hlead]
    exact List.mem_append_left _ hc

end

section

variable {slot : ValueSlot} {a b : Text} (h : SlotIn selfClosing t name slot l p r a b)

include h

/-- A value without quotes is found as a whole. -/
theorem SlotIn.eq_nil (hvalue : ∀ c ∈ p.value, c ≠ '"' ∧ c ≠ '\'') : a = [] ∧ b = [] := by
  have hquote : ∀ {c : Char}, c = '"' ∨ c = '\'' → c ∉ p.value := by
    rintro c hc hmem
    rcases hc with rfl | rfl
    · exact (hvalue _ hmem).1 rfl
    · exact (hvalue _ hmem).2 rfl
  rw [h.value] at hquote
  constructor
  · rcases List.eq_nil_or_concat' a with rfl | ⟨front, q, rfl⟩
    · rfl
    · exact absurd (by simp) (hquote (h.last q (by simp)))
  · cases b with
    | nil => rfl
    | cons q b => exact absurd (by simp) (hquote (h.first q rfl))

/-- Another text in the slot is another value of the attribute. -/
theorem SlotIn.replace_eq (hp : p.skipped = []) (value : Text) :
    slot.replace value =
      StartTag.text selfClosing { t with pieces := l ++ { p with value := a ++ value ++ b } :: r } := by
  rw [text_eq_of_mem rfl, ValueSlot.replace, h.opened, h.after]
  simp only [WrittenPiece.source, WrittenPiece.extent, WrittenPiece.quoted, hp, List.append_assoc,
    List.nil_append]
  rfl

/-- What is left without an attribute whose whole value was found. -/
theorem SlotIn.remove_eq {q : Char} (hb : b = []) (hquote : p.quote = some q) :
    slot.remove = trimEnd (t.upTo l) ++ t.onFrom selfClosing r := by
  rw [ValueSlot.remove, h.trimmed, h.after, hb, hquote]
  rfl

end

end StartTag

end SkinMarkup
