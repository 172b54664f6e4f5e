import SkinMarkup.Proofs.TagText.Found
import SkinMarkup.Proofs.TagText.Spans

/-!
# Slots and attributes

The division of a tag finds its attributes one after the other, and the search for a
slot goes by the spelling of a name. In a tag that is divided completely the two agree
as long as no value spells the name (`find?_of_complete`): there is a slot only with an
attribute, and its value is that of the attribute, unless the attribute is in an unusual
spelling and its value has signs of a tag. A name that is spelled in a value is found
there (`exists_slot_without_attribute`).
-/

namespace SkinMarkup

/-! ## What the division reads -/

namespace TagText

variable {t rest lead name assign skipped : Text} {p : WrittenPiece}

theorem quoted_of_stepValue (h : stepValue lead name assign t = .piece p rest)
    (hquote : p.quote ≠ none) :
    p.lead = lead ∧ p.assign = assign ∧
      ∃ q, p.quote = some q ∧ (q = '"' ∨ q = '\'') ∧ q ∉ p.value := by
  unfold stepValue at h
  split at h
  · cases h
  · next c cs =>
    split at h
    · next hc =>
      split at h
      · cases h
      · next value after hcut =>
        cases h
        exact ⟨rfl, rfl, c, rfl, hc, not_mem_of_cutAt hcut⟩
    · cases h
      exact absurd rfl hquote

theorem quoted_of_stepName (h : stepName lead name t = .piece p rest) (hquote : p.quote ≠ none) :
    p.lead = lead ∧ (∃ m n, p.assign = m ++ '=' :: n ∧ Spaces m ∧ Spaces n) ∧
      ∃ q, p.quote = some q ∧ (q = '"' ∨ q = '\'') ∧ q ∉ p.value := by
  unfold stepName at h
  dsimp only at h
  split at h
  · cases h
  · next c cs hstart =>
    split at h
    · obtain ⟨hlead, hassign, hquoted⟩ := quoted_of_stepValue h hquote
      exact ⟨hlead, ⟨_, _, hassign, List.all_eq_true.mp List.all_takeWhile,
        List.all_eq_true.mp List.all_takeWhile⟩, hquoted⟩
    · cases h

/-- **An attribute that is read with quotes is lexed.** -/
theorem lexed_of_step (h : step t = .piece p rest) (hquote : p.quote ≠ none) : p.Lexed := by
  obtain ⟨-, hskipped, hnamed⟩ := step_piece h
  unfold step at h
  dsimp only at h
  split at h
  · cases h
  · next hstart =>
    obtain ⟨hlead, hassign, hquoted⟩ := quoted_of_stepName h hquote
    obtain ⟨-, -, hname⟩ := stepName_piece h
    refine ⟨hskipped, ?_, hnamed, ?_, ?_, hassign, hquoted⟩
    · rw [hlead]
      exact List.all_eq_true.mp List.all_takeWhile
    · intro c hc
      rw [hname] at hc
      simpa using List.mem_takeWhile_imp hc
    · intro hhead
      obtain ⟨cs, hcs⟩ := List.head?_eq_some_iff.mp hhead
      refine hstart (Or.inr ?_)
      rw [← List.takeWhile_append_dropWhile (p := (!endsName ·)) (l := t.dropWhile isSpace), ← hname,
        hcs]
      rfl

theorem exists_step_of_mem_readPieces (hp : p ∈ (readPieces skipped t).1) :
    ∃ u rest piece, step u = .piece piece rest ∧ p = { piece with skipped := p.skipped } := by
  fun_induction readPieces skipped t with
  | case1 => cases hp
  | case2 skipped t read rest h _ ih => exact ih hp
  | case3 skipped t piece rest h _ pieces tail heq ih =>
    rw [heq] at ih
    rcases List.mem_cons.mp hp with rfl | hp
    · exact ⟨t, rest, piece, h, rfl⟩
    · exact ih hp

theorem lexed_of_mem_readPieces (hp : p ∈ (readPieces skipped t).1) (hskipped : p.skipped = [])
    (hquote : p.quote ≠ none) : p.Lexed := by
  obtain ⟨u, rest, piece, hstep, hpiece⟩ := exists_step_of_mem_readPieces hp
  have hsame : p = piece := by rw [hpiece, hskipped, ← (step_piece hstep).2.1]
  rw [hsame] at hquote ⊢
  exact lexed_of_step hstep hquote

/-- The text of a start tag that is divided completely: into attributes in quotes, with
proper and different names and with a blank before each of them. -/
structure Complete (tag : Text) : Prop where
  opened : tag.head? = some '<'
  pieces : ∀ p ∈ (ofText tag).pieces,
    p.skipped = [] ∧ p.lead ≠ [] ∧ NameChars p.name ∧ p.quote ≠ none
  nodup : ((ofText tag).pieces.map (·.name)).Nodup
  closed : ∃ selfClosing, (ofText tag).tail.dropWhile isSpace = closer selfClosing

instance (tag : Text) : Decidable (Complete tag) :=
  decidable_of_iff (tag.head? = some '<' ∧ (∀ p ∈ (ofText tag).pieces,
      p.skipped = [] ∧ p.lead ≠ [] ∧ NameChars p.name ∧ p.quote ≠ none) ∧
      ((ofText tag).pieces.map (·.name)).Nodup ∧
      ∃ selfClosing, (ofText tag).tail.dropWhile isSpace = closer selfClosing)
    ⟨fun ⟨h₁, h₂, h₃, h₄⟩ => ⟨h₁, h₂, h₃, h₄⟩, fun ⟨h₁, h₂, h₃, h₄⟩ => ⟨h₁, h₂, h₃, h₄⟩⟩

/-- A tag that is divided completely is a spaced start tag. -/
theorem Complete.exists_startTag {tag : Text} (h : Complete tag) :
    ∃ (t : StartTag) (selfClosing : Bool), t.Spaced ∧ tag = t.text selfClosing ∧
      (ofText tag).head = '<' :: t.name ∧ (ofText tag).pieces = t.pieces := by
  obtain ⟨cs, rfl⟩ := List.head?_eq_some_iff.mp h.opened
  obtain ⟨selfClosing, hclosed⟩ := h.closed
  have hsource := source_ofText ('<' :: cs)
  have htail := List.takeWhile_append_dropWhile (p := isSpace) (l := (ofText ('<' :: cs)).tail)
  rw [hclosed] at htail
  refine ⟨⟨cs.takeWhile (!endsName ·), (ofText ('<' :: cs)).pieces,
    (ofText ('<' :: cs)).tail.takeWhile isSpace⟩, selfClosing, ⟨?_, ?_, ?_, h.nodup, ?_⟩, ?_, rfl, rfl⟩
  · intro c hc
    simpa using List.mem_takeWhile_imp hc
  · intro p hp
    obtain ⟨hskipped, -, hname, hquote⟩ := h.pieces p hp
    have hlexed := lexed_of_mem_readPieces hp hskipped hquote
    exact ⟨hskipped, hlexed.lead, hlexed.named, hname, hlexed.assign, hlexed.quoted⟩
  · exact fun p hp => (h.pieces p hp).2.1
  · exact List.all_eq_true.mp List.all_takeWhile
  · refine hsource.symm.trans ?_
    simp only [source, StartTag.text, StartTag.content, List.append_assoc, htail]
    rfl

end TagText

/-! ## The span of a slot -/

/-- A text is divided where its first part ends. -/
theorem append_inj_of_width {a b c d : Text} (h : a ++ c = b ++ d) (hwidth : width a = width b) :
    a = b ∧ c = d := by
  have hsplit := splitAt?_width a c
  rw [h, hwidth, splitAt?_width] at hsplit
  cases hsplit
  exact ⟨rfl, rfl⟩

/-- As many characters of a text are as wide as its first part if they are that part. -/
theorem eq_length_of_width_take {a b : Text} {k : Nat} (hb : b ≠ [])
    (h : width ((a ++ b).take k) = width a) : k = a.length := by
  obtain ⟨htake, -⟩ := append_inj_of_width (List.take_append_drop k (a ++ b)) h
  have hlength := congrArg List.length htake
  have := List.length_pos_iff.mpr hb
  rw [List.length_take, List.length_append] at hlength
  omega

/-- Where the value of a slot stands. -/
def ValueSlot.valueSpan (s : ValueSlot) : Span :=
  ⟨s.valueStart, s.valueStop⟩

/-- An attribute whose slot is its value: it is in the usual spelling, or its value has
no equals sign, and no double quotes inside single ones. -/
def WrittenPiece.Legible (p : WrittenPiece) : Prop :=
  p.lead.getLast? = some ' ' ∧ p.assign = ['='] ∨
    '=' ∉ p.value ∧ (p.quote = some '\'' → '"' ∉ p.value)

instance (p : WrittenPiece) : Decidable p.Legible :=
  inferInstanceAs (Decidable (_ ∨ _))

/-- An attribute that is found as a whole if it is found: it is in the usual spelling, or
its value has no double quotes inside single ones. -/
def WrittenPiece.Entire (p : WrittenPiece) : Prop :=
  p.lead.getLast? = some ' ' ∧ p.assign = ['='] ∨ (p.quote = some '\'' → '"' ∉ p.value)

instance (p : WrittenPiece) : Decidable p.Entire :=
  inferInstanceAs (Decidable (_ ∨ _))

/-- What does not stand in a text stands behind it. -/
theorem length_le_of_append_cons {a b r s : Text} {c d : Char} (h : a ++ c :: r = b ++ d :: s)
    (hc : c ∉ b) : b.length ≤ a.length := by
  rcases List.append_eq_append_iff.mp h with ⟨y, rfl, hy⟩ | ⟨y, rfl, -⟩
  · cases y with
    | nil => simp
    | cons e y =>
      obtain ⟨rfl, -⟩ := List.cons.inj hy
      exact absurd (by simp) hc
  · simp

/-- A value without other quotes that come first is measured as a whole if it is. -/
theorem eq_of_measure {blanks value rest : Text} {q : Char} {pad length : Nat}
    (hblanks : Spaces blanks) (hq : q = '"' ∨ q = '\'') (hvalue : q ∉ value)
    (hdouble : q = '\'' → '"' ∉ value)
    (hrest : ∀ c ∈ (ValueSlot.flatten rest).takeWhile (· != '='), c ≠ '"' ∧ c ≠ '\'')
    (h : ValueSlot.measure (ValueSlot.flatten (blanks ++ q :: (value ++ q :: rest))) =
      some (pad, length)) : pad = blanks.length + 1 ∧ length = value.length := by
  obtain ⟨hpad, hlength⟩ := le_of_measure hblanks hrest h
  obtain ⟨front, q', found, near, hq', hfront, htake, hsingle, rfl, rfl⟩ :=
    ValueSlot.exists_of_measure h
  have hsign : asSpace q = q := by rcases hq with rfl | rfl <;> rfl
  have hsign' : asSpace q' = q' := by rcases hq' with rfl | rfl <;> rfl
  obtain ⟨more, hmore⟩ : front ++ q' :: (found ++ q' :: near) <+:
      ValueSlot.flatten (blanks ++ q :: (value ++ q :: rest)) := htake ▸ List.takeWhile_prefix _
  have hsplit : front ++ (q' :: (found ++ (q' :: near ++ more))) =
      blanks.map asSpace ++ (q :: (value.map asSpace ++ (q :: rest.map asSpace))) := by
    simpa [flatten_eq_map, hsign] using hmore
  -- A quote in the value is one before it was flattened.
  have hwithin : ∀ c, c = '"' ∨ c = '\'' → c ∉ value → c ∉ value.map asSpace := by
    intro c hc hnot
    exact StartTag.not_mem_asSpace hnot (by rcases hc with rfl | rfl <;> decide)
  obtain ⟨skip, rfl, hbehind⟩ : ∃ skip, front = blanks.map asSpace ++ skip ∧
      skip ++ q' :: (found ++ (q' :: near ++ more)) =
        q :: (value.map asSpace ++ (q :: rest.map asSpace)) := by
    rcases List.append_eq_append_iff.mp hsplit with ⟨skip, hskip, hbehind⟩ | ⟨skip, hskip, hbehind⟩
    · have hlengths := congrArg List.length hskip
      simp only [List.length_append, List.length_map] at hlengths
      have hnil : skip = [] := List.eq_nil_of_length_eq_zero (by omega)
      rw [hnil] at hskip hbehind
      exact ⟨[], by simpa using hskip.symm, by simpa using hbehind⟩
    · exact ⟨skip, hskip, hbehind.symm⟩
  simp only [List.length_append, List.length_map] at hpad hlength ⊢
  cases skip with
  | nil =>
    obtain ⟨rfl, hfound⟩ := List.cons.inj hbehind
    have hbound := length_le_of_append_cons hfound (hwithin _ hq hvalue)
    simp only [List.length_nil, List.length_map] at hlength hbound ⊢
    exact ⟨by simp, by omega⟩
  | cons d skip =>
    -- The quote that is found stands behind the value, which is too far.
    obtain ⟨rfl, hvalues⟩ := List.cons.inj hbehind
    have hne : d ≠ q' := fun heq => hfront (heq ▸ by simp)
    have hdouble' : q' = '"' := by
      refine hq'.resolve_right fun hq' => ?_
      rcases hq with rfl | rfl
      · exact hsingle hq' (htake ▸ by simp)
      · exact hne hq'.symm
    have hsingle' : d = '\'' := hq.resolve_left fun hd => hne (hd.trans hdouble'.symm)
    have hbound := length_le_of_append_cons hvalues
      (hwithin _ hq' (hdouble' ▸ hdouble hsingle'))
    simp only [List.length_cons, List.length_map] at hlength hbound
    omega

/-- Only a value without signs of a tag is measured as a whole. -/
theorem of_measure_eq {blanks value rest : Text} {q : Char}
    (h : ValueSlot.measure (ValueSlot.flatten (blanks ++ q :: (value ++ q :: rest))) =
      some (blanks.length + 1, value.length)) :
    '=' ∉ value ∧ (q = '\'' → '"' ∉ value) := by
  obtain ⟨front, q', found, near, hq', -, htake, hdouble, hpad, hlength⟩ :=
    ValueSlot.exists_of_measure h
  obtain ⟨more, hmore⟩ : front ++ q' :: (found ++ q' :: near) <+:
      ValueSlot.flatten (blanks ++ q :: (value ++ q :: rest)) := htake ▸ List.takeWhile_prefix _
  have hsplit : front ++ (q' :: (found ++ (q' :: near ++ more))) =
      blanks.map asSpace ++ (asSpace q :: (value.map asSpace ++ (asSpace q :: rest.map asSpace))) := by
    simpa [flatten_eq_map] using hmore
  -- The measured value is as long as the value and starts at the same place.
  obtain ⟨-, hbehind⟩ := List.append_inj hsplit (by rw [List.length_map]; omega)
  obtain ⟨hquote, hvalue⟩ := List.cons.inj hbehind
  obtain ⟨hfound, -⟩ := List.append_inj hvalue (by rw [List.length_map, hlength])
  have hwithin : ∀ c ∈ value, asSpace c ∈
      (ValueSlot.flatten (blanks ++ q :: (value ++ q :: rest))).takeWhile (· != '=') := by
    intro c hc
    rw [htake, hfound]
    simp only [List.mem_append, List.mem_cons]
    exact Or.inr (Or.inr (Or.inl (List.mem_map_of_mem hc)))
  constructor
  · intro hmem
    have hequals := List.mem_takeWhile_imp (hwithin '=' hmem)
    cases hequals
  · rintro rfl hmem
    exact hdouble hquote (hwithin '"' hmem)

namespace StartTag

variable {t : StartTag} {p : WrittenPiece} {l r : List WrittenPiece} {selfClosing : Bool}
  {slot : ValueSlot}

theorem valueStart_eq (hskipped : p.skipped = []) : (p.spans (width (t.upTo l))).value.start =
    width (t.upTo l ++ (p.lead ++ (p.name ++ (p.assign ++ p.quote.toList)))) := by
  simp only [WrittenPiece.spans, hskipped, width_append, width_nil]
  omega

theorem SlotAt.valueSpan_eq (h : SlotAt selfClosing t l p r slot) (hskipped : p.skipped = []) :
    slot.valueSpan = (p.spans (width (t.upTo l))).value := by
  have hstart : slot.valueStart = (p.spans (width (t.upTo l))).value.start := by
    rw [valueStart_eq hskipped, ← h.opened, width_append]
    rfl
  rw [ValueSlot.valueSpan, ValueSlot.valueStop, h.value, hstart]
  rfl

section

variable (h : t.Spaced) (hsplit : t.pieces = l ++ p :: r)
  (hspares : ∀ x ∈ t.pieces, Spares p.name x.value)

include h hsplit hspares

/-- In an unusual spelling only a value without signs of a tag is found where it is. -/
theorem Spaced.signs_of_valueSpan {b : Text} {e : Char} (hlead : p.lead = b ++ [e])
    (hother : ¬ (e = ' ' ∧ p.assign = ['=']))
    (hspan : (ValueSlot.find? p.name (t.text selfClosing)).map ValueSlot.valueSpan =
      some (p.spans (width (t.upTo l))).value) :
    '=' ∉ p.value ∧ (p.quote = some '\'' → '"' ∉ p.value) := by
  have hproper := h.pieces p (mem_of_split hsplit).1
  obtain ⟨m, n, q, -, hm, -, hassign, hquote, -, -⟩ := hproper.exists_source
  rw [h.find?_eq_measure hsplit hlead hspares hm hassign hquote hother selfClosing, Option.map_map,
    Option.map_eq_some_iff] at hspan
  obtain ⟨⟨pad, length⟩, hmeasure, hspan⟩ := hspan
  have hrest : n ++ q :: (p.value ++ q :: t.onFrom selfClosing r) =
      (n ++ [q]) ++ (p.value ++ q :: t.onFrom selfClosing r) := by simp
  rw [hrest] at hspan
  obtain ⟨hstart, hstop⟩ := Span.mk.inj hspan
  simp only [ValueSlot.valueStop, ValueSlot.valueStart, ValueSlot.attributeStart, width_append,
    width_cons, width_nil, hproper.skipped, hlead, hassign, hquote, Option.toList_some]
    at hstart hstop
  -- No other part of the text between the same ends is as wide as the quote or the value.
  have hpad : pad = (n ++ [q]).length := by
    refine eq_length_of_width_take (b := p.value ++ q :: t.onFrom selfClosing r) (by simp) ?_
    simp only [width_append, width_cons, width_nil]
    omega
  have hlength : length = p.value.length := by
    refine eq_length_of_width_take (List.cons_ne_nil q (t.onFrom selfClosing r)) ?_
    rw [hpad, List.drop_left] at hstop
    rw [hpad] at hstart
    omega
  rw [hpad, hlength, List.length_append, List.length_singleton] at hmeasure
  obtain ⟨hequals, hdouble⟩ := of_measure_eq hmeasure
  exact ⟨hequals, fun hsingle => hdouble (Option.some.inj (hquote.symm.trans hsingle))⟩

/-- **The slot of an attribute that is entire is its value,** if there is one. -/
theorem Spaced.slotAt_of_entire (hentire : p.Entire)
    (hfind : ValueSlot.find? p.name (t.text selfClosing) = some slot) :
    SlotAt selfClosing t l p r slot := by
  obtain ⟨hp, -, hr⟩ := mem_of_split hsplit
  have hproper := h.pieces p hp
  obtain ⟨m, n, q, -, hm, hn, hassign, hquote, hq, hmem⟩ := hproper.exists_source
  obtain ⟨b, e, hlead⟩ := h.exists_lead hp
  have hslot : ∀ {other}, ValueSlot.find? p.name (t.text selfClosing) = some other →
      SlotAt selfClosing t l p r other → SlotAt selfClosing t l p r slot := by
    intro other hother hat
    cases hfind.symm.trans hother
    exact hat
  by_cases husual : e = ' ' ∧ p.assign = ['=']
  · obtain ⟨other, hother, hat⟩ :=
      h.find?_of_usual hsplit hlead hspares husual.1 husual.2 hquote hq hmem selfClosing
    exact hslot hother hat
  · have hdouble : q = '\'' → '"' ∉ p.value := by
      rintro rfl
      rcases hentire with ⟨hlast, hplain⟩ | hdouble
      · rw [hlead, List.getLast?_concat] at hlast
        exact absurd ⟨Option.some.inj hlast, hplain⟩ husual
      · exact hdouble hquote
    have hmeasured := hfind
    rw [h.find?_eq_measure hsplit hlead hspares hm hassign hquote husual selfClosing,
      Option.map_eq_some_iff] at hmeasured
    obtain ⟨⟨pad, length⟩, hmeasure, -⟩ := hmeasured
    obtain ⟨rfl, rfl⟩ :=
      eq_of_measure hn hq hmem hdouble (h.quotes_onFrom hr selfClosing) hmeasure
    obtain ⟨other, hother, hat⟩ :=
      h.find?_of_measure hsplit hlead hspares hm hassign hquote husual hmeasure
    exact hslot hother hat

/-- **The slot of an attribute is its value if and only if it is legible.** -/
theorem Spaced.valueSpan_eq_iff (selfClosing : Bool) :
    (ValueSlot.find? p.name (t.text selfClosing)).map ValueSlot.valueSpan =
      some (p.spans (width (t.upTo l))).value ↔ p.Legible := by
  obtain ⟨hp, -, -⟩ := mem_of_split hsplit
  have hproper := h.pieces p hp
  obtain ⟨m, n, q, -, hm, hn, hassign, hquote, hq, hmem⟩ := hproper.exists_source
  obtain ⟨b, e, hlead⟩ := h.exists_lead hp
  have hlast : p.lead.getLast? = some e := by rw [hlead, List.getLast?_concat]
  have hfound : ∀ {slot}, ValueSlot.find? p.name (t.text selfClosing) = some slot →
      SlotAt selfClosing t l p r slot →
      (ValueSlot.find? p.name (t.text selfClosing)).map ValueSlot.valueSpan =
        some (p.spans (width (t.upTo l))).value := by
    intro slot hfind hslot
    rw [hfind, Option.map_some, hslot.valueSpan_eq hproper.skipped]
  by_cases husual : e = ' ' ∧ p.assign = ['=']
  · obtain ⟨slot, hfind, hslot⟩ :=
      h.find?_of_usual hsplit hlead hspares husual.1 husual.2 hquote hq hmem selfClosing
    exact ⟨fun _ => Or.inl ⟨husual.1 ▸ hlast, husual.2⟩, fun _ => hfound hfind hslot⟩
  · refine ⟨fun hspan => Or.inr (h.signs_of_valueSpan hsplit hspares hlead husual hspan), ?_⟩
    rintro (⟨hspace, hplain⟩ | ⟨hequals, hdouble⟩)
    · exact absurd ⟨Option.some.inj (hlast.symm.trans hspace), hplain⟩ husual
    · obtain ⟨slot, hfind, hslot⟩ := h.find?_of_unusual hsplit hlead hspares hm hn hassign hquote hq
        hequals hmem (fun hsingle => hdouble (hsingle ▸ hquote)) husual selfClosing
      exact hfound hfind hslot

end

end StartTag

/-! ## The two readings of a tag -/

/-- **In a tag that is divided completely the slot of a name is the value of the attribute
of that name,** if no value spells the name and the attribute is legible. There is no slot
without an attribute. -/
theorem find?_of_complete {tag name : Text} (h : TagText.Complete tag) (hne : name ≠ [])
    (hname : NameChars name) (hspares : ∀ p ∈ (TagText.ofText tag).pieces, Spares name p.value) :
    (name ∉ (TagText.ofText tag).pieces.map (·.name) → ValueSlot.find? name tag = none) ∧
      ∀ e ∈ (TagText.ofText tag).attributes, e.1.name = name →
        ((ValueSlot.find? name tag).map ValueSlot.valueSpan = some e.2.value ↔ e.1.Legible) := by
  obtain ⟨t, selfClosing, hspaced, htext, hhead, hpieces⟩ := h.exists_startTag
  rw [TagText.attributes, hhead, hpieces]
  rw [hpieces] at hspares
  subst htext
  refine ⟨fun hother => hspaced.find?_eq_none hne hname hother hspares selfClosing, ?_⟩
  rintro ⟨p, spans⟩ he rfl
  obtain ⟨l, r, hsplit, rfl⟩ := WrittenPiece.mem_withSpans_iff.mp he
  have hbefore : width ('<' :: t.name) + width (l.flatMap WrittenPiece.source) = width (t.upTo l) := by
    rw [← width_append]
    rfl
  rw [hbefore]
  exact hspaced.valueSpan_eq_iff hsplit hspares selfClosing

theorem find?_of_spellings :
    let tag := "<e\tid = \"bg\" w='a=\"b\"' x=' id'/>".toList
    TagText.Complete tag ∧ ValueSlot.find? "depth".toList tag = none ∧
      (ValueSlot.find? "id".toList tag).map ValueSlot.valueSpan = some ⟨9, 11⟩ := by
  intro tag
  have hcomplete : TagText.Complete tag := by decide +kernel
  have hspares : ∀ name ∈ ["depth".toList, "id".toList],
      ∀ p ∈ (TagText.ofText tag).pieces, Spares name p.value := by decide +kernel
  have hdepth := find?_of_complete hcomplete (by decide) (by decide) (hspares "depth".toList (by simp))
  have hid := find?_of_complete hcomplete (by decide) (by decide) (hspares "id".toList (by simp))
  refine ⟨hcomplete, hdepth.1 (by decide +kernel), ?_⟩
  exact (hid.2 (⟨[], ['\t'], "id".toList, " = ".toList, "bg".toList, some '"'⟩,
    ⟨⟨3, 5⟩, ⟨9, 11⟩, ⟨2, 12⟩⟩) (by decide +kernel) rfl).mpr (by decide)

/-- A name that is spelled in a value has a slot there, though the tag has no attribute of
that name. -/
theorem exists_slot_without_attribute :
    let tag := "<a x=' n=\"v\"'/>".toList
    TagText.Complete tag ∧ "n".toList ∉ (TagText.ofText tag).pieces.map (·.name) ∧
      (ValueSlot.find? "n".toList tag).map ValueSlot.valueSpan = some ⟨10, 11⟩ := by
  decide +kernel

end SkinMarkup
