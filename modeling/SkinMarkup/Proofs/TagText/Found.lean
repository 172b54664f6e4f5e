import SkinMarkup.Proofs.TagText.Edits

/-!
# What a search for an attribute finds

A value that is found in a tag's text stands between two quotes, whatever the text
is (`ValueSlot.enclosed_of_find?`). In a tidy tag whose values do not mention the
attribute, it is a part of the attribute's value (`Tidy.find?_part`).
-/

namespace SkinMarkup

namespace ValueSlot

variable {name tag : Text} {slot : ValueSlot}

/-- A slot of a tag's text whose value stands between two quotes. -/
def Enclosed (tag : Text) (slot : ValueSlot) : Prop :=
  slot.source = tag ∧ ∃ front q back, (q = '"' ∨ q = '\'') ∧
    slot.before ++ slot.lead = front ++ [q] ∧ slot.after = q :: back

theorem enclosed_of_ofOpener {quote : Char} (hquote : quote = '"' ∨ quote = '\'')
    {before after : Text} (hcut : cutAtWord (opener name quote) tag = some (before, after))
    (h : ofOpener name quote before after = some slot) : Enclosed tag slot := by
  obtain ⟨⟨value, rest⟩, hvalue, rfl⟩ := Option.map_eq_some_iff.mp h
  have hbefore : dropEndWhile isLayout before ++ (takeEndWhile isLayout before ++
      opener name quote) = before ++ (' ' :: name ++ ['=']) ++ [quote] := by
    rw [← List.append_assoc, dropEndWhile_append_takeEndWhile]
    simp [opener]
  refine ⟨?_, before ++ (' ' :: name ++ ['=']), quote, rest, hquote, hbefore, rfl⟩
  rw [source, hbefore, cutAtWord_eq_some hcut, cutAt_eq_some hvalue]
  simp [opener]

/-- A measured value stands between two quotes, with no equals sign before
them. -/
theorem exists_of_measure {flat : Text} {pad length : Nat} (h : measure flat = some (pad, length)) :
    ∃ front q value near, (q = '"' ∨ q = '\'') ∧ q ∉ front ∧
      flat.takeWhile (· != '=') = front ++ q :: (value ++ q :: near) ∧
      (q = '\'' → '"' ∉ flat.takeWhile (· != '=')) ∧ pad = front.length + 1 ∧ length = value.length := by
  rw [measure] at h
  generalize flat.takeWhile (· != '=') = rest at h ⊢
  dsimp only at h
  obtain ⟨q, hq, hquote, hdouble⟩ : ∃ q, (if rest.contains '"' then '"' else '\'') = q ∧
      (q = '"' ∨ q = '\'') ∧ (q = '\'' → '"' ∉ rest) := by
    by_cases hmem : '"' ∈ rest
    · exact ⟨'"', by simp [hmem], Or.inl rfl, by simp⟩
    · exact ⟨'\'', by simp [hmem], Or.inr rfl, fun _ => hmem⟩
  rw [hq] at h
  cases hcut : cutAt q rest with
  | none =>
    rw [hcut] at h
    cases h
  | some cut =>
    obtain ⟨front, more⟩ := cut
    rw [hcut] at h
    cases hlast : cutAtLast q more with
    | none =>
      simp only [bind, Option.bind, hlast] at h
      cases h
    | some last =>
      obtain ⟨value, near⟩ := last
      simp only [bind, Option.bind, hlast] at h
      cases h
      obtain ⟨⟨back, front'⟩, hrev, heq⟩ := Option.map_eq_some_iff.mp hlast
      cases heq
      refine ⟨front, q, front'.reverse, back.reverse, hquote, not_mem_of_cutAt hcut, ?_, hdouble,
        rfl, rfl⟩
      have hmore : more = front'.reverse ++ q :: back.reverse := by
        rw [← List.reverse_reverse more, cutAt_eq_some hrev]
        simp
      rw [cutAt_eq_some hcut, hmore]

/-- A flattened text has quotes where the text has them. -/
theorem exists_of_map_asSpace {t front back : Text} {q : Char} (hq : q = '"' ∨ q = '\'')
    (h : t.map asSpace = front ++ q :: back) :
    ∃ front' back', t = front' ++ q :: back' ∧ front'.map asSpace = front ∧
      back'.map asSpace = back := by
  obtain ⟨front', rest, rfl, hfront, hrest⟩ := List.map_eq_append_iff.mp h
  obtain ⟨q', back', rfl, hquote, hback⟩ := List.map_eq_cons_iff.mp hrest
  have hsame : q' = q := by
    cases hlayout : isLayout q' with
    | false => rw [← hquote, gentle_asSpace.fixed q' hlayout]
    | true =>
      simp only [asSpace, hlayout, if_true] at hquote
      exact absurd hquote.symm (quote_signs hq).2
  exact ⟨front', back', by rw [hsame], hfront, hback⟩

theorem le_of_locate {flat : Text} {start equals : Nat} (h : locate name flat = some (start, equals)) :
    start ≤ equals := by
  rw [locate] at h
  split at h
  · cases h
    omega
  · obtain ⟨⟨before, after⟩, -, h⟩ := Option.bind_eq_some_iff.mp h
    obtain ⟨⟨middle, rest⟩, -, h⟩ := Option.bind_eq_some_iff.mp h
    cases h
    omega

theorem enclosed_of_findRelaxed (h : findRelaxed name tag = some slot) : Enclosed tag slot := by
  rw [findRelaxed] at h
  obtain ⟨⟨start, equals⟩, hlocate, h⟩ := Option.bind_eq_some_iff.mp h
  obtain ⟨⟨pad, length⟩, hmeasure, h⟩ := Option.bind_eq_some_iff.mp h
  cases h
  obtain ⟨front, q, value, near, hq, -, htake, -, rfl, rfl⟩ := exists_of_measure hmeasure
  -- Behind the equals sign the text has the quotes where the flattened text has them.
  have hflat : (tag.drop equals).map asSpace = front ++ q :: (value ++ q :: (near ++
      ((flatten tag).drop equals).dropWhile (· != '='))) := by
    rw [List.map_drop]
    conv => lhs; rw [← flatten_eq_map, ← List.takeWhile_append_dropWhile (p := (· != '='))
      (l := (flatten tag).drop equals), htake]
    simp
  obtain ⟨front', rest, hrest, rfl, hmap⟩ := exists_of_map_asSpace hq hflat
  obtain ⟨value', back, rfl, rfl, -⟩ := exists_of_map_asSpace hq hmap
  have htag : tag = tag.take equals ++ front' ++ [q] ++ (value' ++ q :: back) := by
    conv => lhs; rw [← List.take_append_drop equals tag, hrest]
    simp
  have hlength : (tag.take equals ++ front' ++ [q]).length = equals + (front'.length + 1) := by
    have hle : equals ≤ tag.length := by
      by_contra hlong
      rw [List.drop_eq_nil_of_le (by omega)] at hrest
      simp at hrest
    simp [Nat.min_eq_left hle]
  have hstart := le_of_locate hlocate
  simp only [List.length_map]
  generalize hvalueStart : equals + (front'.length + 1) = valueStart at *
  have hbefore : tag.take valueStart = tag.take equals ++ front' ++ [q] := by
    conv => lhs; rw [htag, ← hlength, List.take_left']
  have hafter : tag.drop valueStart = value' ++ q :: back := by
    conv => lhs; rw [htag, ← hlength, List.drop_left']
  have hopened : tag.take start ++ (tag.take valueStart).drop start = tag.take valueStart := by
    have htake : tag.take start = (tag.take valueStart).take start := by
      rw [List.take_take, Nat.min_eq_left (by omega)]
    rw [htake, List.take_append_drop]
  refine ⟨?_, tag.take equals ++ front', q, back, hq, ?_, ?_⟩
  · rw [source]
    dsimp only
    rw [hopened, ← List.drop_drop, List.append_assoc, List.take_append_drop, List.take_append_drop]
  · rw [hopened, hbefore]
  · rw [← List.drop_drop, hafter, List.drop_left']
    rfl

/-- **A value that is found stands between two quotes.** -/
theorem enclosed_of_find? (h : find? name tag = some slot) : Enclosed tag slot := by
  rw [find?] at h
  split at h
  · next hcut => exact enclosed_of_ofOpener (Or.inl rfl) hcut h
  · split at h
    · next hcut => exact enclosed_of_ofOpener (Or.inr rfl) hcut h
    · exact enclosed_of_findRelaxed h

/-- What stands in front of an enclosed value ends in a quote. -/
theorem Enclosed.quote_of_getLast? {front a : Text} (h : Enclosed tag slot)
    (hopened : slot.before ++ slot.lead = front ++ a) : ∀ c ∈ a.getLast?, c = '"' ∨ c = '\'' := by
  obtain ⟨-, front', q, back, hq, hfront, -⟩ := h
  intro c hc
  have hne : a ≠ [] := by
    rintro rfl
    cases hc
  rw [hopened] at hfront
  have hlast := congrArg List.getLast? hfront
  rw [List.getLast?_append_of_ne_nil _ hne, hc, List.getLast?_concat] at hlast
  rw [Option.some.inj hlast]
  exact hq

/-- What stands behind an enclosed value starts with a quote. -/
theorem Enclosed.quote_of_head? {b rest : Text} (h : Enclosed tag slot)
    (hafter : slot.after = b ++ rest) : ∀ c ∈ b.head?, c = '"' ∨ c = '\'' := by
  obtain ⟨-, front, q, back, hq, -, hback⟩ := h
  intro c hc
  obtain ⟨cs, rfl⟩ := List.head?_eq_some_iff.mp hc
  rw [hafter] at hback
  rw [(List.cons.inj hback).1]
  exact hq

end ValueSlot

/-! ## In a tidy tag -/

section

variable {blanks value more : Text} {q : Char} {k : Nat}

theorem take_quoted (hk : k ≤ value.length) :
    (blanks ++ q :: (value ++ q :: more)).take (blanks.length + 1 + k) =
      blanks ++ q :: value.take k := by
  rw [Nat.add_assoc, List.take_length_add_append, Nat.add_comm 1 k, List.take_succ_cons,
    List.take_append_of_le_length hk]

theorem drop_quoted (hk : k ≤ value.length) :
    (blanks ++ q :: (value ++ q :: more)).drop (blanks.length + 1 + k) =
      value.drop k ++ q :: more := by
  rw [Nat.add_assoc, List.drop_length_add_append, Nat.add_comm 1 k, List.drop_succ_cons,
    List.drop_append_of_le_length hk]

end

/-- What is measured behind an equals sign is a part of the value there. -/
theorem le_of_measure {blanks value rest : Text} {q : Char} {pad length : Nat}
    (hblanks : Spaces blanks)
    (hrest : ∀ c ∈ (ValueSlot.flatten rest).takeWhile (· != '='), c ≠ '"' ∧ c ≠ '\'')
    (h : ValueSlot.measure (ValueSlot.flatten (blanks ++ q :: (value ++ q :: rest))) =
      some (pad, length)) :
    blanks.length + 1 ≤ pad ∧ pad + length ≤ blanks.length + 1 + value.length := by
  obtain ⟨front, q', found, near, hq', hfront, htake, -, rfl, rfl⟩ := ValueSlot.exists_of_measure h
  let before := ValueSlot.flatten (blanks ++ q :: (value ++ [q]))
  have hflat : ValueSlot.flatten (blanks ++ q :: (value ++ q :: rest)) =
      before ++ ValueSlot.flatten rest := by
    simp [before, ValueSlot.flatten]
  have hlength : before.length = blanks.length + 1 + value.length + 1 := by
    simp [before, ValueSlot.flatten]
    omega
  rw [hflat] at htake
  have hstarts : front ++ q' :: (found ++ q' :: near) <+: before ++ ValueSlot.flatten rest :=
    htake ▸ List.takeWhile_prefix _
  constructor
  · -- The first quote is not among the blanks.
    by_contra hshort
    have hfirst : blanks.map asSpace <+: before ++ ValueSlot.flatten rest :=
      ⟨(q :: (value ++ [q])).map asSpace ++ ValueSlot.flatten rest, by simp [before, flatten_eq_map]⟩
    have hquote : front ++ [q'] <+: blanks.map asSpace :=
      List.prefix_of_prefix_length_le (List.IsPrefix.trans ⟨found ++ q' :: near, by simp⟩ hstarts)
        hfirst (by simp; omega)
    have hspace := StartTag.eq_space_of_mem hblanks q' (hquote.subset (by simp))
    exact (quote_signs hq').2 hspace
  · -- The second one would be among the quotes behind the value.
    by_contra hlong
    have hinside : before <+: front ++ q' :: found := by
      refine List.prefix_of_prefix_length_le (List.prefix_append before (ValueSlot.flatten rest))
        (List.IsPrefix.trans ⟨q' :: near, by simp⟩ hstarts) ?_
      rw [hlength]
      simp
      omega
    obtain ⟨more, hmore⟩ := hinside
    have hsplit : front ++ q' :: (found ++ q' :: near) = before ++ (more ++ q' :: near) := by
      rw [← List.append_assoc before, hmore]
      simp
    rw [hsplit] at htake
    have hall : ∀ c ∈ before, (c != '=') = true := fun c hc =>
      List.all_eq_true.mp List.all_takeWhile c (htake ▸ List.mem_append_left _ hc)
    rw [List.takeWhile_append_of_pos hall] at htake
    have hmem : q' ∈ (ValueSlot.flatten rest).takeWhile (· != '=') := by
      rw [List.append_cancel_left htake]
      simp
    rcases hq' with rfl | rfl
    · exact (hrest _ hmem).1 rfl
    · exact (hrest _ hmem).2 rfl

namespace StartTag

variable {t : StartTag} {p : WrittenPiece} {l r : List WrittenPiece} {slot : ValueSlot}
  {selfClosing : Bool}

/-- **What is found for an attribute is a part of its value.** -/
theorem Tidy.find?_part (h : t.Tidy) (hp : p ∈ t.pieces)
    (havoid : ∀ x ∈ t.pieces, Avoids p.name x.value)
    (hfind : ValueSlot.find? p.name (t.text selfClosing) = some slot) : slot.value <:+: p.value := by
  obtain ⟨l, r, hsplit⟩ := List.append_of_mem hp
  obtain ⟨-, -, hr⟩ := mem_of_split hsplit
  obtain ⟨m, n, q, -, hm, hn, hassign, hquote, hq, hmem⟩ := (h.proper hp).exists_source
  obtain ⟨b, e, hlead⟩ := h.toSpaced.exists_lead hp
  have hspares : ∀ x ∈ t.pieces, Spares p.name x.value := fun x hx => (havoid x hx).spares
  by_cases husual : e = ' ' ∧ p.assign = ['=']
  · obtain ⟨found, hfound, hslot⟩ :=
      h.toSpaced.find?_of_usual hsplit hlead hspares husual.1 husual.2 hquote hq hmem selfClosing
    rw [hfind] at hfound
    cases hfound
    exact hslot.value ▸ List.infix_refl _
  · rw [h.toSpaced.find?_eq_measure hsplit hlead hspares hm hassign hquote husual selfClosing,
      Option.map_eq_some_iff] at hfind
    obtain ⟨⟨pad, length⟩, hmeasure, rfl⟩ := hfind
    obtain ⟨hpad, hlength⟩ := le_of_measure hn (h.toSpaced.quotes_onFrom hr selfClosing) hmeasure
    obtain ⟨skip, rfl⟩ := Nat.exists_eq_add_of_le hpad
    have hvalue : (p.value.drop skip).take length <:+: p.value :=
      (List.take_prefix _ _).isInfix.trans (List.drop_suffix _ _).isInfix
    dsimp only
    rw [drop_quoted (by omega), List.take_append_of_le_length (by rw [List.length_drop]; omega)]
    exact hvalue

end StartTag

end SkinMarkup
