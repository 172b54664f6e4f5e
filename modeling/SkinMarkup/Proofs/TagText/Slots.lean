import SkinMarkup.Proofs.TagText.Tidy
import SkinMarkup.Proofs.Text.Trim
import SkinMarkup.TagText.ValueSlot

/-!
# Slots in start tags

A slot is found by the spelling of an attribute alone. In a start tag with proper
attributes behind blanks whose values do not spell the name, the spelling stands
nowhere but at the attribute of that name. So the slot is the value of that attribute
(`Spaced.find?_of_mem`), and there is none without it (`Spaced.find?_eq_none`).

The search reads a tag twice, once as it is and once with every blank as a
space. Both readings are the tag under a map of characters that keeps everything
but blanks (`Gentle`).
-/

namespace SkinMarkup

/-! ## Where a word does not start -/

/-- No occurrence of a word starts in `s` if `t` follows. -/
def NoStart (word s t : Text) : Prop :=
  ∀ a b, s = a ++ b → b ≠ [] → ¬ word <+: b ++ t

variable {word s t u : Text}

theorem NoStart.append (hs : NoStart word s (t ++ u)) (ht : NoStart word t u) :
    NoStart word (s ++ t) u := by
  intro a b hab hb hstart
  rcases List.append_eq_append_iff.mp hab with ⟨c, rfl, rfl⟩ | ⟨c, rfl, rfl⟩
  · exact ht c b rfl hb hstart
  · cases c with
    | nil => exact ht [] t rfl (by simpa using hb) (by simpa using hstart)
    | cons d ds =>
      rw [List.append_assoc] at hstart
      exact hs a (d :: ds) rfl (List.cons_ne_nil d ds) hstart

theorem noStart_nil : NoStart word [] t := by
  intro a b hab hb
  exact absurd (List.append_eq_nil_iff.mp hab.symm).2 hb

theorem noStart_of_not_mem {w : Char} {ws : Text} (h : w ∉ s) : NoStart (w :: ws) s t := by
  rintro a b rfl hb hstart
  obtain ⟨c, cs, rfl⟩ := List.exists_cons_of_ne_nil hb
  obtain ⟨rfl, -⟩ := List.cons_prefix_cons.mp hstart
  exact h (List.mem_append_right a List.mem_cons_self)

theorem NoStart.cutAtWord_eq (h : NoStart word s t) :
    cutAtWord word (s ++ t) = (cutAtWord word t).map fun (a, b) => (s ++ a, b) :=
  cutAtWord_append_of_avoids h

theorem NoStart.cutAtWord_eq_none (hword : word ≠ []) (h : NoStart word s []) :
    cutAtWord word s = none := by
  rw [cutAtWord_eq_none_iff]
  rintro ⟨a, b, rfl⟩
  rw [List.append_assoc] at h
  refine h a (word ++ b) rfl (by simp [hword]) ?_
  rw [List.append_assoc]
  exact List.prefix_append _ _

/-- A word that starts nowhere in a part of a text stands behind it. -/
theorem NoStart.exists_of_append_eq {x y : Text} (h : NoStart word s t)
    (heq : s ++ t = x ++ (word ++ y)) : ∃ x', x = s ++ x' ∧ t = x' ++ (word ++ y) := by
  rcases List.append_eq_append_iff.mp heq with hbehind | ⟨b, rfl, hb⟩
  · exact hbehind
  · by_cases hnil : b = []
    · subst hnil
      exact ⟨[], by simp, hb.symm⟩
    · exact absurd ⟨y, hb⟩ (h x b rfl hnil)

/-- A word is cut out where it stands for the first time. -/
theorem NoStart.cutAtWord_of_word (hword : word ≠ []) (h : NoStart word s (word ++ t)) :
    cutAtWord word (s ++ (word ++ t)) = some (s, t) := by
  rw [h.cutAtWord_eq, cutAtWord_of_append word t hword]
  simp

/-! ## The spelling of an attribute -/

/-- A spelling of an attribute: a space, its name and an equals sign or a space, which
ends the name. -/
structure Spelling (name ending : Text) : Prop where
  nonempty : name ≠ []
  chars : NameChars name
  ends : ∃ c cs, ending = c :: cs ∧ (c = '=' ∨ c = ' ')

/-- A text in which no spelling of an attribute starts. -/
def Unspelled (name ending t : Text) : Prop :=
  ∀ c ∈ ending.head?, ¬ ' ' :: (name ++ [c]) <:+: t

theorem unspelled_of_unmentioned {name t : Text} (h : ¬ ' ' :: name <:+: t) (ending : Text) :
    Unspelled name ending t := by
  intro c _ hmentions
  exact h ((List.prefix_append (' ' :: name) [c]).isInfix.trans hmentions)

variable {name ending lead other value : Text} {q : Char}

/-- Where a name is spelled, the whole name is spelled. -/
theorem Spelling.eq_of_starts (h : Spelling name ending) (hother : NameChars other)
    (hend : ∀ c ∈ t.head?, isNameChar c = false) (hstart : name ++ ending <+: other ++ t) :
    name = other ∧ ending <+: t := by
  obtain ⟨c, cs, rfl, hsign⟩ := h.ends
  have hc : isNameChar c = false := by rcases hsign with rfl | rfl <;> decide
  obtain ⟨rest, hrest⟩ := hstart
  have hleft : (name ++ (c :: cs ++ rest)).takeWhile isNameChar = name :=
    takeWhile_append_eq_left h.chars (by rintro d ⟨⟩; exact hc)
  have hright : (other ++ t).takeWhile isNameChar = other := takeWhile_append_eq_left hother hend
  rw [← hrest, List.append_assoc, hleft] at hright
  subst hright
  refine ⟨rfl, rest, ?_⟩
  rw [List.append_assoc] at hrest
  exact List.append_cancel_left hrest

/-- No name is spelled among characters that belong to no name. -/
theorem Spelling.noStart_blanks (h : Spelling name ending) (hs : ∀ c ∈ s, isNameChar c = false)
    (ht : ∀ c ∈ t.head?, isNameChar c = false) : NoStart (' ' :: (name ++ ending)) s t := by
  rintro a b rfl hb hstart
  obtain ⟨c, cs, rfl⟩ := List.exists_cons_of_ne_nil hb
  obtain ⟨d, ds, rfl⟩ := List.exists_cons_of_ne_nil h.nonempty
  obtain ⟨-, hstart⟩ := List.cons_prefix_cons.mp hstart
  have hd : isNameChar d = true := h.chars d List.mem_cons_self
  have hhead : ∀ e ∈ (cs ++ t).head?, isNameChar e = false := by
    intro e he
    cases cs with
    | nil => exact ht e he
    | cons f fs =>
      cases he
      exact hs e (List.mem_append_right a (List.mem_cons_of_mem c List.mem_cons_self))
  obtain ⟨rest, hrest⟩ := hstart
  have hrest : d :: (ds ++ ending ++ rest) = cs ++ t := hrest
  rw [← hrest] at hhead
  cases hd.symm.trans (hhead d rfl)

theorem quote_signs (h : q = '"' ∨ q = '\'') : isNameChar q = false ∧ q ≠ ' ' := by
  rcases h with rfl | rfl <;> decide

/-- No name is spelled in a value without its spelling. -/
theorem Spelling.noStart_value (h : Spelling name ending) (hvalue : Unspelled name ending value)
    (hq : q = '"' ∨ q = '\'') : NoStart (' ' :: (name ++ ending)) value (q :: t) := by
  obtain ⟨c, cs, rfl, hsign⟩ := h.ends
  obtain ⟨hqname, hqspace⟩ := quote_signs hq
  rintro a b rfl hb hstart
  have hname : ' ' :: (name ++ [c]) <+: b ++ q :: t :=
    List.IsPrefix.trans ⟨cs, by simp⟩ hstart
  have hb' : b ++ [q] <+: b ++ q :: t := ⟨t, by simp⟩
  -- Either the name ends inside the value, or the quote is a part of it.
  by_cases hlength : (' ' :: (name ++ [c])).length ≤ b.length
  · have hinside : ' ' :: (name ++ [c]) <+: b :=
      List.prefix_of_prefix_length_le hname (List.prefix_append b _) hlength
    exact hvalue c rfl (hinside.isInfix.trans (List.suffix_append a b).isInfix)
  · have houtside : b ++ [q] <+: ' ' :: (name ++ [c]) :=
      List.prefix_of_prefix_length_le hb' hname (by rw [List.length_append]; simp at hlength ⊢; omega)
    have hmem : q ∈ ' ' :: (name ++ [c]) := houtside.subset (by simp)
    rcases List.mem_cons.mp hmem with heq | hmem
    · exact hqspace heq
    · rcases List.mem_append.mp hmem with hmem | hmem
      · cases hqname.symm.trans (h.chars q hmem)
      · obtain rfl := List.mem_singleton.mp hmem
        rcases hq with rfl | rfl <;> rcases hsign with hsign | hsign <;> cases hsign

/-! ## Maps of characters -/

/-- A map of characters that keeps everything but line breaks and the like,
which do not become a part of a name. -/
structure Gentle (f : Char → Char) : Prop where
  fixed : ∀ c, isLayout c = false → f c = c
  blank : ∀ c, isLayout c = true → isNameChar (f c) = false

theorem gentle_id : Gentle id := by
  refine ⟨fun c _ => rfl, fun c hc => ?_⟩
  simp only [isLayout, Bool.or_eq_true, beq_iff_eq] at hc
  rcases hc with ((rfl | rfl) | rfl) | rfl <;> decide

/-- The map that makes every blank a space. -/
def asSpace (c : Char) : Char :=
  if isLayout c then ' ' else c

theorem flatten_eq_map (t : Text) : ValueSlot.flatten t = t.map asSpace := rfl

theorem gentle_asSpace : Gentle asSpace := by
  refine ⟨fun c hc => ?_, fun c hc => ?_⟩
  · rw [asSpace, hc]
    rfl
  · rw [asSpace, if_pos hc]
    decide

section

variable {f : Char → Char} (hf : Gentle f)

include hf

theorem Gentle.map_name (h : NameChars other) : other.map f = other := by
  conv => rhs; rw [← List.map_id other]
  refine List.map_congr_left fun c hc => hf.fixed c ?_
  cases hl : isLayout c with
  | false => rfl
  | true =>
    have hblank := gentle_id.blank c hl
    cases hblank.symm.trans (h c hc)

/-- A name in a tag has no space, and gets none. -/
theorem Gentle.not_mem_head (h : TagText.Unended name) : ' ' ∉ ('<' :: name).map f := by
  rw [List.map_cons, hf.fixed '<' rfl]
  intro hmem
  rcases List.mem_cons.mp hmem with heq | hmem
  · cases heq
  · obtain ⟨c, hc, heq⟩ := List.mem_map.mp hmem
    have hspace : isSpace c = false := by
      cases hs : isSpace c with
      | false => rfl
      | true => cases (TagText.endsName_of_isSpace hs).symm.trans (h c hc)
    have hlayout : isLayout c = false := by
      simp only [isSpace, isLayout, Bool.or_eq_false_iff] at hspace ⊢
      exact ⟨⟨⟨hspace.1.1.1.2, hspace.1.1.2⟩, hspace.1.2⟩, hspace.2⟩
    rw [hf.fixed c hlayout] at heq
    subst heq
    cases hspace

theorem Gentle.isNameChar_of_mem_spaces (h : Spaces s) :
    ∀ c ∈ s.map f, isNameChar c = false := by
  intro c hc
  obtain ⟨d, hd, rfl⟩ := List.mem_map.mp hc
  cases hl : isLayout d with
  | true => exact hf.blank d hl
  | false =>
    rw [hf.fixed d hl]
    exact isNameChar_eq_false_of_isSpace (h d hd)

/-- The characters of a tag's grammar are kept. -/
theorem Gentle.map_sign {c : Char} (h : c = '=' ∨ c = '"' ∨ c = '\'' ∨ c = '<' ∨ c = '/' ∨ c = '>') :
    f c = c := by
  apply hf.fixed
  rcases h with rfl | rfl | rfl | rfl | rfl | rfl <;> rfl

/-- The parts of a proper attribute under a gentle map. -/
theorem Gentle.map_piece {p : WrittenPiece} (h : p.Proper) :
    ∃ l r q, (p.assign ++ p.quoted).map f = l ++ '=' :: (r ++ (q :: p.value.map f ++ [q])) ∧
      (∀ c ∈ l, isNameChar c = false) ∧ (∀ c ∈ r, isNameChar c = false) ∧
      (q = '"' ∨ q = '\'') := by
  obtain ⟨l, r, q, -, hl, hr, hassign, hquote, hq, -⟩ := h.exists_source
  refine ⟨l.map f, r.map f, q, ?_, hf.isNameChar_of_mem_spaces hl, hf.isNameChar_of_mem_spaces hr,
    hq⟩
  have hfq : f q = q := hf.map_sign (by rcases hq with rfl | rfl <;> simp)
  have hfe : f '=' = '=' := hf.map_sign (Or.inl rfl)
  simp [WrittenPiece.quoted, hassign, hquote, hfq, hfe]

theorem Gentle.map_source {p : WrittenPiece} (h : p.Proper) :
    p.source.map f = p.lead.map f ++ (p.name ++ (p.assign ++ p.quoted).map f) := by
  simp [WrittenPiece.source, WrittenPiece.extent, h.skipped, hf.map_name h.name]

/-- Behind the name of an attribute stands no character of names. -/
theorem Gentle.head?_behind_name {p : WrittenPiece} (h : p.Proper) (t : Text) :
    ∀ c ∈ ((p.assign ++ p.quoted).map f ++ t).head?, isNameChar c = false := by
  obtain ⟨l, r, q, hmore, hl, -, -⟩ := hf.map_piece h
  rw [hmore]
  intro c hc
  cases l with
  | nil =>
    cases hc
    decide
  | cons d ds =>
    cases hc
    exact hl c List.mem_cons_self

/-- Behind the last blank before the name of an attribute, a space stands only among
other blanks and in the value. -/
theorem Spelling.noStart_behind_lead {p : WrittenPiece} (hspell : Spelling name ending)
    (h : p.Proper) (hunspelled : Unspelled name ending (p.value.map f)) (t : Text) :
    NoStart (' ' :: (name ++ ending)) (p.name ++ (p.assign ++ p.quoted).map f) t := by
  obtain ⟨l, r, q, hmore, hl, hr, hq⟩ := hf.map_piece h
  obtain ⟨hqname, hqspace⟩ := quote_signs hq
  have hspaceName : ' ' ∉ p.name := by
    intro hmem
    have := h.name ' ' hmem
    revert this
    decide
  have hparts : p.name ++ (p.assign ++ p.quoted).map f =
      p.name ++ (l ++ (['='] ++ (r ++ ([q] ++ (p.value.map f ++ [q]))))) := by
    rw [hmore]
    simp
  rw [hparts]
  refine NoStart.append ?_ (NoStart.append ?_ (NoStart.append ?_ (NoStart.append ?_
    (NoStart.append ?_ (NoStart.append ?_ ?_)))))
  · exact noStart_of_not_mem hspaceName
  · refine hspell.noStart_blanks hl ?_
    rintro c ⟨⟩
    decide
  · exact noStart_of_not_mem (by decide)
  · refine hspell.noStart_blanks hr ?_
    rintro c ⟨⟩
    exact hqname
  · exact noStart_of_not_mem (by simpa using hqspace.symm)
  · exact hspell.noStart_value hunspelled hq
  · exact noStart_of_not_mem (by simpa using hqspace.symm)

/-- **Where a name is spelled in an attribute, it is the name of the attribute.** -/
theorem Spelling.starts_in_piece {p : WrittenPiece} {x y : Text} (hspell : Spelling name ending)
    (h : p.Proper) (hlead : p.lead ≠ []) (hunspelled : Unspelled name ending (p.value.map f))
    (hstarts : p.source.map f ++ t = x ++ (' ' :: (name ++ ending) ++ y)) :
    (p.name = name ∧ ∃ b e, p.lead = b ++ [e] ∧ f e = ' ' ∧ x = b.map f ∧
      (p.assign ++ p.quoted).map f ++ t = ending ++ y) ∨
    ∃ x', x = p.source.map f ++ x' ∧ t = x' ++ (' ' :: (name ++ ending) ++ y) := by
  obtain ⟨b, e, hbe⟩ : ∃ b e, p.lead = b ++ [e] := by
    rcases List.eq_nil_or_concat p.lead with hnil | ⟨b, e, hbe⟩
    · exact absurd hnil hlead
    · exact ⟨b, e, by rw [hbe, List.concat_eq_append]⟩
  have hblanks := hf.isNameChar_of_mem_spaces h.lead
  rw [hbe, List.map_append] at hblanks
  have hsource : p.source.map f =
      b.map f ++ ([f e] ++ (p.name ++ (p.assign ++ p.quoted).map f)) := by
    rw [hf.map_source h, hbe]
    simp
  have hfirst : NoStart (' ' :: (name ++ ending)) (b.map f)
      ([f e] ++ (p.name ++ (p.assign ++ p.quoted).map f) ++ t) := by
    refine hspell.noStart_blanks (fun c hc => hblanks c (List.mem_append_left _ hc)) ?_
    rintro c ⟨⟩
    exact hblanks (f e) (by simp)
  rw [hsource, List.append_assoc] at hstarts
  obtain ⟨x₁, rfl, hblank⟩ := hfirst.exists_of_append_eq hstarts
  cases x₁ with
  | nil =>
    obtain ⟨he, htail⟩ := List.cons.inj hblank
    have hname : p.name ++ ((p.assign ++ p.quoted).map f ++ t) = name ++ (ending ++ y) := by
      rw [← List.append_assoc, ← List.append_assoc]
      exact htail
    obtain ⟨rfl, -⟩ := hspell.eq_of_starts h.name (hf.head?_behind_name h t)
      ⟨y, by rw [hname, List.append_assoc]⟩
    rw [List.append_nil]
    exact Or.inl ⟨rfl, b, e, hbe, he, rfl, List.append_cancel_left hname⟩
  | cons d x₂ =>
    obtain ⟨rfl, htail⟩ := List.cons.inj hblank
    obtain ⟨x', rfl, ht⟩ := (hspell.noStart_behind_lead hf h hunspelled t).exists_of_append_eq htail
    exact Or.inr ⟨x', by rw [hsource]; simp, ht⟩

/-- **No other attribute is spelled like this one.** -/
theorem Spelling.noStart_piece {p : WrittenPiece} (hspell : Spelling name ending) (h : p.Proper)
    (hlead : p.lead ≠ []) (hunspelled : Unspelled name ending (p.value.map f))
    (hother : p.name = name → (p.lead.map f).getLast? = some ' ' →
      ¬ ending <+: (p.assign ++ p.quoted).map f ++ t) :
    NoStart (' ' :: (name ++ ending)) (p.source.map f) t := by
  rintro x b heq hb ⟨y, hy⟩
  have hstarts : p.source.map f ++ t = x ++ (' ' :: (name ++ ending) ++ y) := by
    rw [heq, List.append_assoc, hy]
  rcases hspell.starts_in_piece hf h hlead hunspelled hstarts with
    ⟨hname, u, e, hbe, he, -, hending⟩ | ⟨x', rfl, -⟩
  · exact hother hname (by rw [hbe]; simp [he]) ⟨y, hending.symm⟩
  · have hlength := congrArg List.length heq
    have := List.length_pos_iff.mpr hb
    simp only [List.length_append] at hlength
    omega

/-- Attributes of other names do not spell a name. -/
theorem Spelling.noStart_pieces {pieces : List WrittenPiece} (hspell : Spelling name ending)
    (h : ∀ p ∈ pieces, p.Proper ∧ p.lead ≠ [])
    (hother : name ∉ pieces.map (·.name))
    (hunspelled : ∀ p ∈ pieces, Unspelled name ending (p.value.map f)) :
    NoStart (' ' :: (name ++ ending)) ((pieces.flatMap WrittenPiece.source).map f) t := by
  induction pieces generalizing t with
  | nil => exact noStart_nil
  | cons p pieces ih =>
    obtain ⟨⟨hp, hlead⟩, h⟩ := List.forall_mem_cons.mp h
    obtain ⟨hvalue, hunspelled⟩ := List.forall_mem_cons.mp hunspelled
    rw [List.map_cons, List.mem_cons, not_or] at hother
    rw [List.flatMap_cons, List.map_append]
    refine NoStart.append ?_ (ih h hother.2 hunspelled)
    exact hspell.noStart_piece hf hp hlead hvalue fun heq => absurd heq.symm hother.1

end

/-! ## Spaced start tags -/

/-- A value in which a name is spelled nowhere. -/
structure Spares (name value : Text) : Prop where
  equals : ¬ ' ' :: (name ++ ['=']) <:+: ValueSlot.flatten value
  blank : ¬ ' ' :: (name ++ [' ']) <:+: ValueSlot.flatten value

theorem spares_iff {name value : Text} : Spares name value ↔
    containsWord (' ' :: (name ++ ['='])) (ValueSlot.flatten value) = false ∧
      containsWord (' ' :: (name ++ [' '])) (ValueSlot.flatten value) = false := by
  simp only [← Bool.not_eq_true, containsWord_iff]
  exact ⟨fun h => ⟨h.equals, h.blank⟩, fun h => ⟨h.1, h.2⟩⟩

instance (name value : Text) : Decidable (Spares name value) :=
  decidable_of_iff _ spares_iff.symm

/-- A value that does not mention a name after a blank. -/
def Avoids (name value : Text) : Prop :=
  ¬ ' ' :: name <:+: ValueSlot.flatten value

theorem Avoids.spares {name value : Text} (h : Avoids name value) : Spares name value :=
  ⟨unspelled_of_unmentioned h ['='] '=' rfl, unspelled_of_unmentioned h [' '] ' ' rfl⟩

/-- A value without signs of a tag. -/
structure ListValue (value : Text) : Prop where
  equals : '=' ∉ value
  double : '"' ∉ value
  single : '\'' ∉ value

instance (value : Text) : Decidable (ListValue value) :=
  decidable_of_iff ('=' ∉ value ∧ '"' ∉ value ∧ '\'' ∉ value)
    ⟨fun ⟨h₁, h₂, h₃⟩ => ⟨h₁, h₂, h₃⟩, fun ⟨h₁, h₂, h₃⟩ => ⟨h₁, h₂, h₃⟩⟩

namespace StartTag

variable {t : StartTag} {p : WrittenPiece} {l r : List WrittenPiece} {selfClosing : Bool}

/-- What stands in a start tag before the attributes after `pieces`. -/
def upTo (t : StartTag) (pieces : List WrittenPiece) : Text :=
  '<' :: (t.name ++ pieces.flatMap WrittenPiece.source)

/-- What stands in a start tag from the attributes `pieces` on. -/
def onFrom (selfClosing : Bool) (t : StartTag) (pieces : List WrittenPiece) : Text :=
  pieces.flatMap WrittenPiece.source ++ (t.blanks ++ closer selfClosing)

theorem text_eq (h : t.pieces = l ++ r) (selfClosing : Bool) :
    t.text selfClosing = t.upTo l ++ t.onFrom selfClosing r := by
  simp [text, content, upTo, onFrom, h]

theorem text_eq_of_mem (h : t.pieces = l ++ p :: r) (selfClosing : Bool) :
    t.text selfClosing = t.upTo l ++ (p.source ++ t.onFrom selfClosing r) := by
  rw [text_eq h, onFrom, onFrom, List.flatMap_cons, List.append_assoc]

theorem Tidy.pieces_of_subset (h : t.Tidy) {pieces : List WrittenPiece} (hsub : pieces ⊆ t.pieces) :
    ∀ p ∈ pieces, p.Regular ∧ NameChars p.name ∧ p.lead ≠ [] :=
  fun p hp => ⟨h.regular.pieces p (hsub hp), h.names p (hsub hp), h.spaced p (hsub hp)⟩

section

variable {f : Char → Char} {name ending : Text}

theorem Spaced.noStart_upTo (h : t.Spaced) (hf : Gentle f) (hspell : Spelling name ending)
    (hl : l ⊆ t.pieces) (hother : name ∉ l.map (·.name))
    (hunspelled : ∀ p ∈ t.pieces, Unspelled name ending (p.value.map f)) (rest : Text) :
    NoStart (' ' :: (name ++ ending)) ((t.upTo l).map f) rest := by
  have hsplit : (t.upTo l).map f = ('<' :: t.name).map f ++ (l.flatMap WrittenPiece.source).map f := by
    rw [← List.map_append]
    rfl
  rw [hsplit]
  exact (noStart_of_not_mem (hf.not_mem_head h.name)).append (hspell.noStart_pieces hf
    (fun p hp => ⟨h.pieces p (hl hp), h.spaced p (hl hp)⟩) hother fun p hp => hunspelled p (hl hp))

theorem Spaced.noStart_onFrom (h : t.Spaced) (hf : Gentle f) (hspell : Spelling name ending)
    (hr : r ⊆ t.pieces) (hother : name ∉ r.map (·.name))
    (hunspelled : ∀ p ∈ t.pieces, Unspelled name ending (p.value.map f)) (selfClosing : Bool) :
    NoStart (' ' :: (name ++ ending)) ((t.onFrom selfClosing r).map f) [] := by
  have hend : ∀ c ∈ (closer selfClosing).map f, isNameChar c = false := by
    intro c hc
    obtain ⟨d, hd, rfl⟩ := List.mem_map.mp hc
    cases selfClosing with
    | false =>
      rw [List.mem_singleton.mp hd, hf.map_sign (by simp)]
      decide
    | true =>
      simp only [closer, if_true, List.mem_cons, List.not_mem_nil, or_false] at hd
      rcases hd with rfl | rfl <;> rw [hf.map_sign (by simp)] <;> decide
  rw [onFrom, List.map_append]
  refine (hspell.noStart_pieces hf (fun p hp => ⟨h.pieces p (hr hp), h.spaced p (hr hp)⟩) hother
    fun p hp => hunspelled p (hr hp)).append ?_
  apply hspell.noStart_blanks
  · intro c hc
    rw [List.map_append] at hc
    rcases List.mem_append.mp hc with hc | hc
    · exact hf.isNameChar_of_mem_spaces h.blanks c hc
    · exact hend c hc
  · rintro c ⟨⟩

/-- A name that no attribute has is spelled nowhere. -/
theorem Spaced.cutAtWord_eq_none (h : t.Spaced) (hf : Gentle f) (hspell : Spelling name ending)
    (hother : name ∉ t.pieces.map (·.name))
    (hunspelled : ∀ p ∈ t.pieces, Unspelled name ending (p.value.map f)) (selfClosing : Bool) :
    cutAtWord (' ' :: (name ++ ending)) ((t.text selfClosing).map f) = none := by
  rw [text_eq (List.append_nil t.pieces).symm, List.map_append]
  apply NoStart.cutAtWord_eq_none (List.cons_ne_nil _ _)
  exact (h.noStart_upTo hf hspell (List.Subset.refl _) hother hunspelled _).append
    (h.noStart_onFrom hf hspell (List.nil_subset _) List.not_mem_nil hunspelled selfClosing)

end

end StartTag

theorem Spares.unspelled_id {name value : Text} (h : Spares name value) (hname : NameChars name)
    (cs : Text) : Unspelled name ('=' :: cs) (value.map id) := by
  rw [List.map_id]
  rintro c ⟨⟩ hmentions
  have hmap := hmentions.map asSpace
  rw [List.map_cons, List.map_append, gentle_asSpace.map_name hname] at hmap
  exact h.equals hmap

theorem Spares.unspelled_asSpace {name value : Text} (h : Spares name value) {c : Char}
    (hc : c = '=' ∨ c = ' ') (cs : Text) : Unspelled name (c :: cs) (value.map asSpace) := by
  rintro d ⟨⟩
  rcases hc with rfl | rfl
  · exact h.equals
  · exact h.blank

theorem spelling_opener {name : Text} (hne : name ≠ []) (hname : NameChars name) {c : Char}
    (hc : c = '=' ∨ c = ' ') (cs : Text) : Spelling name (c :: cs) :=
  ⟨hne, hname, c, cs, rfl, hc⟩

/-- Where an attribute is located, its value is what is measured behind its equals sign. -/
theorem ValueSlot.findRelaxed_of_locate {name front middle rest : Text}
    (h : locate name (flatten (front ++ middle ++ rest)) =
      some (front.length, (front ++ middle).length)) :
    findRelaxed name (front ++ middle ++ rest) =
      (measure (flatten rest)).map fun (pad, length) =>
        ⟨front, middle ++ rest.take pad, (rest.drop pad).take length, rest.drop (pad + length)⟩ := by
  have hflat : (flatten (front ++ middle ++ rest)).drop (front ++ middle).length = flatten rest := by
    rw [flatten, ← List.map_drop, List.drop_left]
    rfl
  rw [findRelaxed, h]
  dsimp only [bind, Option.bind]
  rw [hflat]
  cases measure (flatten rest) with
  | none => rfl
  | some measured =>
    obtain ⟨pad, length⟩ := measured
    have htake : (front ++ middle ++ rest).take ((front ++ middle).length + pad) =
        front ++ (middle ++ rest.take pad) := by
      rw [List.take_length_add_append, List.append_assoc]
    have hdrop : ∀ k, (front ++ middle ++ rest).drop ((front ++ middle).length + k) = rest.drop k :=
      fun k => List.drop_length_add_append _
    dsimp only
    rw [htake, Nat.add_assoc, hdrop, hdrop, List.drop_left, List.append_assoc, List.take_left]
    rfl

/-- Nothing is found for a name that is spelled nowhere. -/
theorem ValueSlot.find?_of_unspelled {name tag : Text}
    (hplain : ∀ quote, cutAtWord (opener name quote) tag = none)
    (hflat : ∀ c, c = '=' ∨ c = ' ' → cutAtWord (' ' :: name ++ [c]) (flatten tag) = none) :
    find? name tag = none := by
  rw [find?, hplain, hplain]
  dsimp only
  rw [findRelaxed, locate, hflat '=' (Or.inl rfl), hflat ' ' (Or.inr rfl)]
  rfl

namespace StartTag

variable {t : StartTag} {p : WrittenPiece} {l r : List WrittenPiece}

/-- **There is no slot without an attribute.** -/
theorem Spaced.find?_eq_none (h : t.Spaced) {name : Text} (hne : name ≠ []) (hname : NameChars name)
    (hother : name ∉ t.pieces.map (·.name)) (hspares : ∀ p ∈ t.pieces, Spares name p.value)
    (selfClosing : Bool) : ValueSlot.find? name (t.text selfClosing) = none := by
  have hplain : ∀ quote : Char, cutAtWord (ValueSlot.opener name quote) (t.text selfClosing) = none := by
    intro quote
    have hnone := h.cutAtWord_eq_none gentle_id (spelling_opener hne hname (Or.inl rfl) [quote])
      hother (fun p hp => (hspares p hp).unspelled_id hname [quote]) selfClosing
    rw [List.map_id] at hnone
    exact hnone
  exact ValueSlot.find?_of_unspelled hplain fun c hc =>
    h.cutAtWord_eq_none gentle_asSpace (spelling_opener hne hname hc []) hother
      (fun p hp => (hspares p hp).unspelled_asSpace hc []) selfClosing

/-! ## The slot of an attribute -/

theorem asSpace_of_isSpace {c : Char} (h : isSpace c = true) : asSpace c = ' ' := by
  simp only [isSpace, Bool.or_eq_true, beq_iff_eq] at h
  rcases h with (((rfl | rfl) | rfl) | rfl) | rfl <;> rfl

theorem eq_space_of_mem {s : Text} (h : Spaces s) : ∀ c ∈ s.map asSpace, c = ' ' := by
  intro c hc
  obtain ⟨d, hd, rfl⟩ := List.mem_map.mp hc
  exact asSpace_of_isSpace (h d hd)

/-- A name and the blanks around it have no equals sign. -/
theorem equals_not_mem {name blanks : Text} (hname : NameChars name) (hblanks : Spaces blanks) :
    '=' ∉ ' ' :: (name ++ blanks.map asSpace) := by
  intro hmem
  rcases List.mem_cons.mp hmem with heq | hmem
  · cases heq
  · rcases List.mem_append.mp hmem with hmem | hmem
    · exact ne_of_isNameChar (hname '=' hmem) (by decide) rfl
    · cases eq_space_of_mem hblanks '=' hmem

theorem not_mem_asSpace {s : Text} {c : Char} (hs : c ∉ s) (hc : c ≠ ' ') :
    c ∉ s.map asSpace := by
  intro hmem
  obtain ⟨d, hd, heq⟩ := List.mem_map.mp hmem
  unfold asSpace at heq
  split at heq
  · exact hc heq.symm
  · exact hs (heq ▸ hd)

theorem mem_of_mem_takeWhile {f : Char → Bool} {s u : Text} {c d : Char} (hd : f d = false)
    (hc : c ∈ (s ++ d :: u).takeWhile f) : c ∈ s := by
  induction s with
  | nil => simp [hd] at hc
  | cons e es ih =>
    rw [List.cons_append, List.takeWhile_cons] at hc
    split at hc
    · rcases List.mem_cons.mp hc with rfl | hc
      · exact List.mem_cons_self
      · exact List.mem_cons_of_mem e (ih hc)
    · cases hc

/-- What stands after an attribute has no quote before the next equals sign. -/
theorem quotes_onFrom (hr : ∀ x ∈ r, x.Proper) (hblanks : Spaces t.blanks) (selfClosing : Bool) :
    ∀ c ∈ (ValueSlot.flatten (t.onFrom selfClosing r)).takeWhile (· != '='),
      c ≠ '"' ∧ c ≠ '\'' := by
  have hspaces : ∀ {s : Text}, Spaces s → ∀ c ∈ s.map asSpace, c ≠ '"' ∧ c ≠ '\'' := by
    intro s hs c hc
    rw [eq_space_of_mem hs c hc]
    decide
  have hcloser : ∀ c ∈ (closer selfClosing).map asSpace, c ≠ '"' ∧ c ≠ '\'' := by
    cases selfClosing <;> simp [closer, asSpace, isLayout]
  intro c hc
  cases r with
  | nil =>
    have hmem := List.takeWhile_subset _ hc
    rw [onFrom, List.flatMap_nil, List.nil_append, flatten_eq_map, List.map_append,
      List.mem_append] at hmem
    rcases hmem with hmem | hmem
    · exact hspaces hblanks c hmem
    · exact hcloser c hmem
  | cons x xs =>
    have hx := hr x List.mem_cons_self
    obtain ⟨m, n, q, hsource, hm, -, -, -, -, -⟩ := hx.exists_source
    have hsplit : ValueSlot.flatten (t.onFrom selfClosing (x :: xs)) =
        (x.lead.map asSpace ++ (x.name ++ m.map asSpace)) ++ '=' :: (ValueSlot.flatten
          (n ++ (q :: x.value ++ [q]) ++ t.onFrom selfClosing xs)) := by
      have hequals : asSpace '=' = '=' := rfl
      rw [onFrom, List.flatMap_cons, hsource]
      simp [flatten_eq_map, onFrom, gentle_asSpace.map_name hx.name, hequals]
    rw [hsplit] at hc
    have hmem := mem_of_mem_takeWhile (by simp) hc
    rcases List.mem_append.mp hmem with hmem | hmem
    · exact hspaces hx.lead c hmem
    · rcases List.mem_append.mp hmem with hmem | hmem
      · exact ⟨ne_of_isNameChar (hx.name c hmem) (by decide),
          ne_of_isNameChar (hx.name c hmem) (by decide)⟩
      · exact hspaces hm c hmem

theorem Spaced.quotes_onFrom (h : t.Spaced) (hr : r ⊆ t.pieces) (selfClosing : Bool) :
    ∀ c ∈ (ValueSlot.flatten (t.onFrom selfClosing r)).takeWhile (· != '='),
      c ≠ '"' ∧ c ≠ '\'' :=
  StartTag.quotes_onFrom (fun x hx => h.pieces x (hr hx)) h.blanks selfClosing

/-- The value after an equals sign is measured, blanks before it included. -/
theorem measure_eq {blanks value rest : Text} {q : Char} (hblanks : Spaces blanks)
    (hequals : '=' ∉ value) (hqvalue : q ∉ value) (hdouble : q = '\'' → '"' ∉ value)
    (hq : q = '"' ∨ q = '\'')
    (hrest : ∀ c ∈ (ValueSlot.flatten rest).takeWhile (· != '='), c ≠ '"' ∧ c ≠ '\'') :
    ValueSlot.measure (ValueSlot.flatten (blanks ++ (q :: (value ++ q :: rest)))) =
      some (blanks.length + 1, value.length) := by
  let near := (ValueSlot.flatten rest).takeWhile (· != '=')
  have hasq : asSpace q = q := gentle_asSpace.map_sign (by rcases hq with rfl | rfl <;> simp)
  have hqspace : q ≠ ' ' := (quote_signs hq).2
  have hqequals : q ≠ '=' := by rcases hq with rfl | rfl <;> decide
  have hqblanks : q ∉ blanks.map asSpace := fun hmem => hqspace (eq_space_of_mem hblanks q hmem)
  have hqnear : q ∉ near := by
    intro hmem
    rcases hq with rfl | rfl
    · exact (hrest _ hmem).1 rfl
    · exact (hrest _ hmem).2 rfl
  have htake : (ValueSlot.flatten (blanks ++ (q :: (value ++ q :: rest)))).takeWhile (· != '=') =
      blanks.map asSpace ++ q :: (value.map asSpace ++ q :: near) := by
    have hsplit : ValueSlot.flatten (blanks ++ (q :: (value ++ q :: rest))) =
        (blanks.map asSpace ++ q :: (value.map asSpace ++ [q])) ++ ValueSlot.flatten rest := by
      simp [flatten_eq_map, hasq]
    have hno : ∀ c ∈ blanks.map asSpace ++ q :: (value.map asSpace ++ [q]), (c != '=') = true := by
      intro c hc
      rw [bne_iff_ne]
      rintro rfl
      simp only [List.mem_append, List.mem_cons, List.not_mem_nil, or_false] at hc
      rcases hc with hc | hc | hc | hc
      · cases eq_space_of_mem hblanks '=' hc
      · exact hqequals hc.symm
      · exact not_mem_asSpace hequals (by decide) hc
      · exact hqequals hc.symm
    rw [hsplit, List.takeWhile_append_of_pos hno]
    simp [near]
  have hquote : (if (blanks.map asSpace ++ q :: (value.map asSpace ++ q :: near)).contains '"' then
      '"' else '\'') = q := by
    rcases hq with rfl | rfl
    · rw [if_pos (by simp)]
    · rw [if_neg]
      simp only [List.contains_eq_mem, List.mem_append, List.mem_cons, decide_eq_true_eq, not_or]
      refine ⟨fun hmem => ?_, by decide, not_mem_asSpace (hdouble rfl) (by decide), by decide,
        fun hmem => (hrest _ hmem).1 rfl⟩
      cases eq_space_of_mem hblanks _ hmem
  simp only [ValueSlot.measure, htake, hquote, cutAt_append hqblanks, cutAtLast_append hqnear,
    bind, Option.bind, pure, List.length_map]

section

variable {b : Text} {e q : Char} (h : t.Spaced) (hsplit : t.pieces = l ++ p :: r)
  (hlead : p.lead = b ++ [e]) (hspares : ∀ x ∈ t.pieces, Spares p.name x.value)

include hsplit

theorem mem_of_split : p ∈ t.pieces ∧ l ⊆ t.pieces ∧ r ⊆ t.pieces := by
  rw [hsplit]
  exact ⟨by simp, List.subset_append_left _ _,
    List.Subset.trans (List.subset_cons_self p r) (List.subset_append_right _ _)⟩

include h

theorem Spaced.not_mem_others : p.name ∉ l.map (·.name) ∧ p.name ∉ r.map (·.name) := by
  have hnodup := h.nodup
  rw [hsplit, List.map_append, List.map_cons, List.nodup_append] at hnodup
  obtain ⟨-, hright, hdisjoint⟩ := hnodup
  exact ⟨fun hmem => hdisjoint _ hmem _ List.mem_cons_self rfl, (List.nodup_cons.mp hright).1⟩

/-- A name is spelled nowhere in a tag if not at the attribute of that name. -/
theorem Spaced.cutAtWord_eq_none_of_other {f : Char → Char} {ending : Text} (hf : Gentle f)
    (hspell : Spelling p.name ending)
    (hunspelled : ∀ x ∈ t.pieces, Unspelled p.name ending (x.value.map f)) (selfClosing : Bool)
    (hother : (p.lead.map f).getLast? = some ' ' →
      ¬ ending <+: (p.assign ++ p.quoted).map f ++ (t.onFrom selfClosing r).map f) :
    cutAtWord (' ' :: (p.name ++ ending)) ((t.text selfClosing).map f) = none := by
  obtain ⟨hp, hl, hr⟩ := mem_of_split hsplit
  obtain ⟨hleft, hright⟩ := h.not_mem_others hsplit
  have hpiece := hspell.noStart_piece hf (h.pieces p hp) (h.spaced p hp) (hunspelled p hp)
    fun _ => hother
  apply NoStart.cutAtWord_eq_none (List.cons_ne_nil _ _)
  rw [text_eq_of_mem hsplit, List.map_append, List.map_append]
  refine (h.noStart_upTo hf hspell hl hleft hunspelled _).append ?_
  refine NoStart.append ?_ (h.noStart_onFrom hf hspell hr hright hunspelled selfClosing)
  rw [List.append_nil]
  exact hpiece

include hlead

/-- Up to the last blank before an attribute its name is spelled nowhere. -/
theorem Spaced.noStart_until {f : Char → Char} {ending : Text} (hf : Gentle f)
    (hspell : Spelling p.name ending) (hunspelled : ∀ x ∈ t.pieces, Unspelled p.name ending (x.value.map f))
    (rest : Text) :
    NoStart (' ' :: (p.name ++ ending)) ((t.upTo l ++ b).map f) (' ' :: rest) := by
  obtain ⟨hp, hl, -⟩ := mem_of_split hsplit
  have hblanks : Spaces b := fun c hc =>
    (h.pieces p hp).lead c (by rw [hlead]; exact List.mem_append_left _ hc)
  rw [List.map_append]
  refine (h.noStart_upTo hf hspell hl (h.not_mem_others hsplit).1 hunspelled _).append ?_
  refine hspell.noStart_blanks (hf.isNameChar_of_mem_spaces hblanks) ?_
  rintro c ⟨⟩
  decide

/-- A tag whose blanks are spaces, around the equals sign of one of its attributes. -/
theorem Spaced.flatten_eq {m n : Text} (hassign : p.assign = m ++ '=' :: n) (selfClosing : Bool) :
    ValueSlot.flatten (t.text selfClosing) = (t.upTo l ++ b).map asSpace ++
      (' ' :: (p.name ++ (m.map asSpace ++ '=' ::
        (n ++ (p.quoted ++ t.onFrom selfClosing r)).map asSpace))) := by
  obtain ⟨hp, -, -⟩ := mem_of_split hsplit
  have hproper := h.pieces p hp
  have hlast : asSpace e = ' ' :=
    asSpace_of_isSpace (hproper.lead e (by rw [hlead]; simp))
  have hsign : asSpace '=' = '=' := rfl
  rw [text_eq_of_mem hsplit]
  simp [flatten_eq_map, WrittenPiece.source, WrittenPiece.extent, hproper.skipped, hlead,
    hassign, hlast, hsign, gentle_asSpace.map_name hproper.name]

include hspares

/-- An attribute in its usual spelling is found. -/
theorem Spaced.cutAtWord_opener (he : e = ' ') (hassign : p.assign = ['=']) (hquote : p.quote = some q)
    (selfClosing : Bool) :
    cutAtWord (ValueSlot.opener p.name q) (t.text selfClosing) =
      some (t.upTo l ++ b, p.value ++ q :: t.onFrom selfClosing r) := by
  obtain ⟨hp, -, -⟩ := mem_of_split hsplit
  have hproper := h.pieces p hp
  have hstart := h.noStart_until hsplit hlead gentle_id
    (spelling_opener hproper.named hproper.name (Or.inl rfl) [q])
    (fun x hx => (hspares x hx).unspelled_id hproper.name [q])
    (p.name ++ ['=', q] ++ (p.value ++ q :: t.onFrom selfClosing r))
  rw [List.map_id] at hstart
  have htext : t.text selfClosing = (t.upTo l ++ b) ++ (' ' :: (p.name ++ ['=', q]) ++
      (p.value ++ q :: t.onFrom selfClosing r)) := by
    rw [text_eq_of_mem hsplit]
    simp [WrittenPiece.source, WrittenPiece.extent, WrittenPiece.quoted,
      hproper.skipped, hlead, hassign, hquote, he]
  rw [htext]
  exact NoStart.cutAtWord_of_word (List.cons_ne_nil _ _) hstart

/-- An attribute in another spelling is not. -/
theorem Spaced.cutAtWord_opener_eq_none (hother : ¬ (e = ' ' ∧ p.assign = ['='] ∧ p.quote = some q))
    (hq : q = '"' ∨ q = '\'') (selfClosing : Bool) :
    cutAtWord (ValueSlot.opener p.name q) (t.text selfClosing) = none := by
  obtain ⟨hp, -, -⟩ := mem_of_split hsplit
  have hproper := h.pieces p hp
  have hnone := h.cutAtWord_eq_none_of_other hsplit gentle_id
    (spelling_opener hproper.named hproper.name (Or.inl rfl) [q])
    (fun x hx => (hspares x hx).unspelled_id hproper.name [q]) selfClosing ?_
  · rw [List.map_id] at hnone
    exact hnone
  intro hlast hstart
  obtain ⟨m, n, q', -, hm, hn, hassign, hquote, hq', -⟩ := hproper.exists_source
  rw [List.map_id, hlead, List.getLast?_concat, Option.some.injEq] at hlast
  rw [List.map_id, WrittenPiece.quoted, hquote, hassign] at hstart
  -- The equals sign comes at once, and so does the quote.
  cases m with
  | cons c cs =>
    obtain ⟨rfl, -⟩ := List.cons_prefix_cons.mp hstart
    cases hm _ List.mem_cons_self
  | nil =>
    obtain ⟨-, hstart⟩ := List.cons_prefix_cons.mp hstart
    cases n with
    | cons c cs =>
      obtain ⟨rfl, -⟩ := List.cons_prefix_cons.mp hstart
      have := hn q List.mem_cons_self
      rcases hq with rfl | rfl <;> cases this
    | nil =>
      obtain ⟨rfl, -⟩ := List.cons_prefix_cons.mp hstart
      exact hother ⟨hlast, hassign, hquote⟩

/-- An attribute is located whose equals sign comes at once. -/
theorem Spaced.locate_eq_of_tight {n : Text} (hassign : p.assign = '=' :: n)
    (selfClosing : Bool) :
    ValueSlot.locate p.name (ValueSlot.flatten (t.text selfClosing)) =
      some ((t.upTo l ++ b).length, (t.upTo l ++ b ++ (e :: (p.name ++ ['=']))).length) := by
  obtain ⟨hp, -, -⟩ := mem_of_split hsplit
  have hproper := h.pieces p hp
  let rest := n ++ (p.quoted ++ t.onFrom selfClosing r)
  have htext : ValueSlot.flatten (t.text selfClosing) = (t.upTo l ++ b).map asSpace ++
      (' ' :: (p.name ++ ['=']) ++ rest.map asSpace) := by
    rw [h.flatten_eq hsplit hlead (m := []) hassign selfClosing]
    simp [rest]
  have hstart := h.noStart_until hsplit hlead gentle_asSpace
    (spelling_opener hproper.named hproper.name (Or.inl rfl : '=' = '=' ∨ '=' = ' ') [])
    (fun x hx => (hspares x hx).unspelled_asSpace (Or.inl rfl) [])
    (p.name ++ ['='] ++ rest.map asSpace)
  have hcut := NoStart.cutAtWord_of_word (List.cons_ne_nil _ _) hstart
  have hword : ' ' :: p.name ++ ['='] = ' ' :: (p.name ++ ['=']) := rfl
  rw [ValueSlot.locate, hword, htext, hcut]
  simp
  omega

/-- An attribute is located that has blanks in front of the equals sign. -/
theorem Spaced.locate_eq_of_padded {c : Char} {cs n : Text} (hm : Spaces (c :: cs))
    (hassign : p.assign = c :: cs ++ '=' :: n) (selfClosing : Bool) :
    ValueSlot.locate p.name (ValueSlot.flatten (t.text selfClosing)) =
      some ((t.upTo l ++ b).length,
        (t.upTo l ++ b ++ (e :: (p.name ++ (c :: cs ++ ['='])))).length) := by
  obtain ⟨hp, -, -⟩ := mem_of_split hsplit
  have hproper := h.pieces p hp
  have hc : asSpace c = ' ' := asSpace_of_isSpace (hm c List.mem_cons_self)
  let rest := n ++ (p.quoted ++ t.onFrom selfClosing r)
  have hunspelled := fun (d : Char) (hd : d = '=' ∨ d = ' ') x (hx : x ∈ t.pieces) =>
    (hspares x hx).unspelled_asSpace hd []
  -- The word with an equals sign at its end is not there.
  have hnone : cutAtWord (' ' :: (p.name ++ ['='])) (ValueSlot.flatten (t.text selfClosing)) =
      none := by
    refine h.cutAtWord_eq_none_of_other hsplit gentle_asSpace
      (spelling_opener hproper.named hproper.name (Or.inl rfl) [])
      (hunspelled '=' (Or.inl rfl)) selfClosing ?_
    intro _ hstart
    rw [hassign, List.cons_append, List.cons_append, List.map_cons, hc] at hstart
    cases (List.cons_prefix_cons.mp hstart).1
  have hstart := h.noStart_until hsplit hlead gentle_asSpace
    (spelling_opener hproper.named hproper.name (Or.inr rfl : ' ' = '=' ∨ ' ' = ' ') [])
    (hunspelled ' ' (Or.inr rfl)) (p.name ++ [' '] ++ (cs.map asSpace ++ '=' :: rest.map asSpace))
  have hcut := NoStart.cutAtWord_of_word (List.cons_ne_nil _ _) hstart
  have htext : ValueSlot.flatten (t.text selfClosing) = (t.upTo l ++ b).map asSpace ++
      (' ' :: (p.name ++ [' ']) ++ (cs.map asSpace ++ '=' :: rest.map asSpace)) := by
    rw [h.flatten_eq hsplit hlead hassign selfClosing]
    simp [hc, rest]
  have hmiddle : '=' ∉ ' ' :: (p.name ++ [' ']) ++ cs.map asSpace := by
    simpa [hc] using equals_not_mem hproper.name hm
  have hword : ∀ d : Char, ' ' :: p.name ++ [d] = ' ' :: (p.name ++ [d]) := fun d => rfl
  rw [ValueSlot.locate, hword, hword, hnone]
  dsimp only
  rw [htext, hcut]
  have hdrop : ((t.upTo l ++ b).map asSpace ++ (' ' :: (p.name ++ [' ']) ++ (cs.map asSpace ++
      '=' :: rest.map asSpace))).drop ((t.upTo l ++ b).map asSpace).length =
      (' ' :: (p.name ++ [' ']) ++ cs.map asSpace) ++ '=' :: rest.map asSpace := by
    rw [List.drop_left, List.append_assoc]
  simp only [bind, Option.bind, hdrop, cutAt_append hmiddle, pure]
  simp
  omega

/-- An attribute in any spelling is located. -/
theorem Spaced.locate_eq {m n : Text} (hm : Spaces m) (hassign : p.assign = m ++ '=' :: n)
    (selfClosing : Bool) :
    ValueSlot.locate p.name (ValueSlot.flatten (t.text selfClosing)) =
      some ((t.upTo l ++ b).length,
        (t.upTo l ++ b ++ (e :: (p.name ++ (m ++ ['='])))).length) := by
  cases m with
  | nil => exact h.locate_eq_of_tight hsplit hlead hspares hassign selfClosing
  | cons c cs => exact h.locate_eq_of_padded hsplit hlead hspares hm hassign selfClosing

end

/-- The text of a tag around the equals sign of one of its attributes. -/
theorem text_eq_of_parts {b m n : Text} {e q : Char} (hsplit : t.pieces = l ++ p :: r)
    (hskipped : p.skipped = []) (hlead : p.lead = b ++ [e]) (hassign : p.assign = m ++ '=' :: n)
    (hquote : p.quote = some q) (selfClosing : Bool) :
    t.text selfClosing = (t.upTo l ++ b) ++ e :: (p.name ++ (m ++ ['='])) ++
      (n ++ q :: (p.value ++ q :: t.onFrom selfClosing r)) := by
  rw [text_eq_of_mem hsplit]
  simp [WrittenPiece.source, WrittenPiece.extent, WrittenPiece.quoted, hskipped, hlead, hassign,
    hquote]

/-- The slot of the attribute `p` in a start tag where `l` stand before it and
`r` behind it. -/
structure SlotAt (selfClosing : Bool) (t : StartTag) (l : List WrittenPiece) (p : WrittenPiece)
    (r : List WrittenPiece) (slot : ValueSlot) : Prop where
  opened : slot.before ++ slot.lead = t.upTo l ++ (p.lead ++ (p.name ++ (p.assign ++ p.quote.toList)))
  value : slot.value = p.value
  after : slot.after = p.quote.toList ++ t.onFrom selfClosing r
  trimmed : trimEnd slot.before = trimEnd (t.upTo l)

theorem blanks_of_isLayout {s : Text} (h : ∀ c ∈ s, isLayout c = true) : Blanks s := by
  intro c hc
  have hl := h c hc
  simp only [isLayout, Bool.or_eq_true, beq_iff_eq] at hl
  rcases hl with ((rfl | rfl) | rfl) | rfl <;> rfl

/-- Blanks of any kind before an attribute belong to it. -/
theorem trimEnd_dropEndWhile (s : Text) : trimEnd (dropEndWhile isLayout s) = trimEnd s := by
  conv => rhs; rw [← dropEndWhile_append_takeEndWhile isLayout s]
  refine (trimEnd_append_blanks _ (blanks_of_isLayout fun c hc => ?_)).symm
  rw [takeEndWhile, List.mem_reverse] at hc
  exact List.all_eq_true.mp List.all_takeWhile c hc

section

variable {b : Text} {e q : Char} (h : t.Spaced) (hsplit : t.pieces = l ++ p :: r)
  (hlead : p.lead = b ++ [e]) (hspares : ∀ x ∈ t.pieces, Spares p.name x.value)

include h hsplit hlead hspares

/-- The slot of an attribute in its usual spelling. -/
theorem Spaced.find?_of_usual (he : e = ' ') (hassign : p.assign = ['=']) (hquote : p.quote = some q)
    (hq : q = '"' ∨ q = '\'') (hvalue : q ∉ p.value) (selfClosing : Bool) :
    ∃ slot, ValueSlot.find? p.name (t.text selfClosing) = some slot ∧
      SlotAt selfClosing t l p r slot := by
  obtain ⟨hp, -, -⟩ := mem_of_split hsplit
  have hcut := h.cutAtWord_opener hsplit hlead hspares he hassign hquote selfClosing
  have hfind : ValueSlot.find? p.name (t.text selfClosing) =
      ValueSlot.ofOpener p.name q (t.upTo l ++ b) (p.value ++ q :: t.onFrom selfClosing r) := by
    rcases hq with rfl | rfl
    · rw [ValueSlot.find?, hcut]
    · have hnone := h.cutAtWord_opener_eq_none (q := '"') hsplit hlead hspares
        (by rintro ⟨-, -, hdouble⟩; cases hquote.symm.trans hdouble) (Or.inl rfl) selfClosing
      rw [ValueSlot.find?, hnone, hcut]
  rw [hfind, ValueSlot.ofOpener, cutAt_append hvalue]
  refine ⟨_, rfl, ?_, rfl, ?_, ?_⟩
  · dsimp only
    rw [← List.append_assoc, dropEndWhile_append_takeEndWhile, hlead, hassign, hquote, he]
    simp [ValueSlot.opener]
  · rw [hquote]
    rfl
  · dsimp only
    rw [trimEnd_dropEndWhile]
    apply trimEnd_append_blanks
    exact Spaces.blanks fun c hc =>
      (h.pieces p hp).lead c (by rw [hlead]; exact List.mem_append_left _ hc)

/-- In another spelling of an attribute its value is measured. -/
theorem Spaced.find?_eq_measure {m n : Text} (hm : Spaces m) (hassign : p.assign = m ++ '=' :: n)
    (hquote : p.quote = some q) (hother : ¬ (e = ' ' ∧ p.assign = ['='])) (selfClosing : Bool) :
    let rest := n ++ q :: (p.value ++ q :: t.onFrom selfClosing r)
    ValueSlot.find? p.name (t.text selfClosing) =
      (ValueSlot.measure (ValueSlot.flatten rest)).map fun (pad, length) =>
        ⟨t.upTo l ++ b, e :: (p.name ++ (m ++ ['='])) ++ rest.take pad, (rest.drop pad).take length,
          rest.drop (pad + length)⟩ := by
  intro rest
  obtain ⟨hp, -, -⟩ := mem_of_split hsplit
  have hnone : ∀ q', q' = '"' ∨ q' = '\'' →
      cutAtWord (ValueSlot.opener p.name q') (t.text selfClosing) = none := fun q' hq' =>
    h.cutAtWord_opener_eq_none hsplit hlead hspares (fun ⟨h₁, h₂, _⟩ => hother ⟨h₁, h₂⟩) hq' selfClosing
  have htext := text_eq_of_parts hsplit (h.pieces p hp).skipped hlead hassign hquote selfClosing
  have hlocate := h.locate_eq hsplit hlead hspares hm hassign selfClosing
  rw [ValueSlot.find?, hnone '"' (Or.inl rfl), hnone '\'' (Or.inr rfl)]
  dsimp only
  rw [htext] at hlocate ⊢
  exact ValueSlot.findRelaxed_of_locate hlocate

/-- An attribute in another spelling whose value is measured as a whole has its slot. -/
theorem Spaced.find?_of_measure {m n : Text} (hm : Spaces m) (hassign : p.assign = m ++ '=' :: n)
    (hquote : p.quote = some q) (hother : ¬ (e = ' ' ∧ p.assign = ['=']))
    (hmeasure : ValueSlot.measure
      (ValueSlot.flatten (n ++ q :: (p.value ++ q :: t.onFrom selfClosing r))) =
        some (n.length + 1, p.value.length)) :
    ∃ slot, ValueSlot.find? p.name (t.text selfClosing) = some slot ∧
      SlotAt selfClosing t l p r slot := by
  have hproper := h.pieces p (mem_of_split hsplit).1
  have hfind := h.find?_eq_measure hsplit hlead hspares hm hassign hquote hother selfClosing
  have hpad : n ++ q :: (p.value ++ q :: t.onFrom selfClosing r) =
      (n ++ [q]) ++ (p.value ++ q :: t.onFrom selfClosing r) := by simp
  have hlength : n.length + 1 = (n ++ [q]).length := by simp
  dsimp only at hfind
  rw [hmeasure, hpad, hlength, Option.map_some] at hfind
  dsimp only at hfind
  rw [← List.drop_drop, List.take_left, List.drop_left, List.take_left, List.drop_left] at hfind
  refine ⟨_, hfind, ?_, rfl, ?_, ?_⟩
  · dsimp only
    rw [hlead, hassign, hquote]
    simp
  · rw [hquote]
    rfl
  · apply trimEnd_append_blanks
    exact Spaces.blanks fun c hc =>
      hproper.lead c (by rw [hlead]; exact List.mem_append_left _ hc)

/-- The slot of an attribute in another spelling. -/
theorem Spaced.find?_of_unusual {m n : Text} (hm : Spaces m) (hn : Spaces n)
    (hassign : p.assign = m ++ '=' :: n) (hquote : p.quote = some q)
    (hq : q = '"' ∨ q = '\'') (hequals : '=' ∉ p.value) (hvalue : q ∉ p.value)
    (hdouble : q = '\'' → '"' ∉ p.value) (hother : ¬ (e = ' ' ∧ p.assign = ['='])) (selfClosing : Bool) :
    ∃ slot, ValueSlot.find? p.name (t.text selfClosing) = some slot ∧
      SlotAt selfClosing t l p r slot :=
  h.find?_of_measure hsplit hlead hspares hm hassign hquote hother
    (measure_eq hn hequals hvalue hdouble hq
      (h.quotes_onFrom (mem_of_split hsplit).2.2 selfClosing))

end

theorem Spaced.exists_lead (h : t.Spaced) (hp : p ∈ t.pieces) : ∃ b e, p.lead = b ++ [e] := by
  rcases List.eq_nil_or_concat p.lead with hnil | ⟨b, e, hbe⟩
  · exact absurd hnil (h.spaced p hp)
  · exact ⟨b, e, by rw [hbe, List.concat_eq_append]⟩

/-- **The slot of an attribute is its value,** if the value has no signs of a
tag. -/
theorem Spaced.find?_of_mem (h : t.Spaced) (hsplit : t.pieces = l ++ p :: r)
    (hspares : ∀ x ∈ t.pieces, Spares p.name x.value) (hvalue : ListValue p.value)
    (selfClosing : Bool) :
    ∃ slot, ValueSlot.find? p.name (t.text selfClosing) = some slot ∧
      SlotAt selfClosing t l p r slot := by
  obtain ⟨hp, -, -⟩ := mem_of_split hsplit
  obtain ⟨m, n, q, -, hm, hn, hassign, hquote, hq, hmem⟩ := (h.pieces p hp).exists_source
  obtain ⟨b, e, hlead⟩ := h.exists_lead hp
  by_cases husual : e = ' ' ∧ p.assign = ['=']
  · exact h.find?_of_usual hsplit hlead hspares husual.1 husual.2 hquote hq hmem selfClosing
  · exact h.find?_of_unusual hsplit hlead hspares hm hn hassign hquote hq hvalue.equals hmem
      (fun _ => hvalue.double) husual selfClosing

/-- Another value in the slot of an attribute is another value of it. -/
theorem SlotAt.replace_eq {slot : ValueSlot} (h : SlotAt selfClosing t l p r slot)
    (hp : p.skipped = []) (value : Text) :
    slot.replace value =
      StartTag.text selfClosing { t with pieces := l ++ { p with value } :: r } := by
  rw [text_eq_of_mem rfl, ValueSlot.replace, h.opened, h.after]
  simp only [WrittenPiece.source, WrittenPiece.extent, WrittenPiece.quoted, hp, List.append_assoc,
    List.nil_append]
  rfl

/-- What is left without the slot of an attribute. -/
theorem SlotAt.remove_eq {slot : ValueSlot} {q : Char} (h : SlotAt selfClosing t l p r slot)
    (hquote : p.quote = some q) :
    slot.remove = trimEnd (t.upTo l) ++ t.onFrom selfClosing r := by
  rw [ValueSlot.remove, h.trimmed, h.after, hquote]
  rfl

end StartTag

end SkinMarkup
