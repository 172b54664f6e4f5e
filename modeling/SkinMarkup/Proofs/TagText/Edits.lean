import SkinMarkup.Proofs.TagText.Slots
import SkinMarkup.Proofs.Text.Names
import SkinMarkup.Scan.Token

/-!
# Edits of start tags

The edits of a tag's text come to two edits of a tidy start tag. `rewrite` gives
attributes other values or drops them: this is what replacing or removing a slot
does (`Tidy.exists_slot`). `append` adds attributes at the end
(`Regular.insertRaw_text`). The tag stays tidy, and what can be read in it
changes in the same way (`Regular.entriesOf?_rewrite`, `Regular.entriesOf?_append`).
-/

namespace SkinMarkup

/-- What becomes of attributes: given a name and a value, the new value, or none
if the attribute goes. -/
abbrev ValueEdit := Text → Text → Option Text

namespace ValueEdit

/-- Gives the attribute `name` a value. -/
def set (name value : Text) : ValueEdit :=
  fun other old => some (if other = name then value else old)

/-- Drops attributes by their names. -/
def drop (names : Text → Bool) : ValueEdit :=
  fun name value => if names name then none else some value

/-- What becomes of a name with its value. -/
def entry (f : ValueEdit) (entry : Text × Text) : Option (Text × Text) :=
  (f entry.1 entry.2).map fun value => (entry.1, value)

/-- An edit that does the same to a written value and to what is read from it. -/
def Reads (f : ValueEdit) (name value : Text) : Prop :=
  ∀ read, unescape value = .ok read →
    f name value = none ∧ f name read = none ∨
      ∃ written' read', f name value = some written' ∧ f name read = some read' ∧
        unescape written' = .ok read'

variable {f : ValueEdit} {name value : Text}

theorem reads_of_eq (h : ∀ value, f name value = some value) : f.Reads name value :=
  fun read hread => Or.inr ⟨value, read, h value, h read, hread⟩

theorem reads_of_none (h : ∀ value, f name value = none) : f.Reads name value :=
  fun read _ => Or.inl ⟨h value, h read⟩

/-- Without references a value is read as it is written. -/
theorem reads_of_not_mem (h : '&' ∉ value) (hnew : ∀ value' ∈ f name value, '&' ∉ value') :
    f.Reads name value := by
  intro read hread
  cases (unescape_of_not_mem h).symm.trans hread
  cases hvalue : f name value with
  | none => exact Or.inl ⟨rfl, rfl⟩
  | some value' =>
    exact Or.inr ⟨value', value', rfl, rfl, unescape_of_not_mem (hnew value' hvalue)⟩

end ValueEdit

theorem WrittenPiece.source_usual (name value : Text) :
    (WrittenPiece.usual name value).source = attributeText name value := by
  simp [source, extent, quoted, usual, attributeText]

/-- A new attribute is inserted in its usual spelling. -/
theorem insertAttribute_eq (kind : TokenKind) (name value tag : Text) :
    insertAttribute kind name value tag =
      insertRaw kind (WrittenPiece.usual name value).source tag := by
  rw [WrittenPiece.source_usual]
  rfl

namespace StartTag

variable {t : StartTag} {name value : Text} {p : WrittenPiece} {l r : List WrittenPiece}
  {selfClosing : Bool} {f g : ValueEdit}

/-- The written value of an attribute. -/
def value? (name : Text) (t : StartTag) : Option Text :=
  (t.pieces.find? (·.name = name)).map (·.value)

/-- An attribute after an edit. -/
def rewritePiece (f : ValueEdit) (p : WrittenPiece) : Option WrittenPiece :=
  (f p.name p.value).map fun value => { p with value }

/-- The tag with other values of its attributes. -/
def rewrite (f : ValueEdit) (t : StartTag) : StartTag :=
  { t with pieces := t.pieces.filterMap (rewritePiece f) }

/-- The tag with more attributes. -/
def append (pieces : List WrittenPiece) (t : StartTag) : StartTag :=
  { t with pieces := t.pieces ++ pieces }

/-! ## One attribute -/

theorem not_mem_of_value? (h : t.value? name = none) : name ∉ t.pieces.map (·.name) := by
  rw [value?, Option.map_eq_none_iff, List.find?_eq_none] at h
  intro hmem
  obtain ⟨p, hp, rfl⟩ := List.mem_map.mp hmem
  exact h p hp (by simp)

theorem exists_split (h : t.value? name = some value) :
    ∃ l p r, t.pieces = l ++ p :: r ∧ p.name = name ∧ p.value = value := by
  rw [value?, Option.map_eq_some_iff] at h
  obtain ⟨p, hfind, rfl⟩ := h
  obtain ⟨l, r, hsplit⟩ := List.append_of_mem (List.mem_of_find?_eq_some hfind)
  exact ⟨l, p, r, hsplit, by simpa using List.find?_some hfind, rfl⟩

/-- A tidy tag has one value for each name. -/
theorem Tidy.value?_of_mem (h : t.Tidy) (hp : p ∈ t.pieces) : t.value? p.name = some p.value := by
  obtain ⟨l, r, hsplit⟩ := List.append_of_mem hp
  have hl : (l.find? (·.name = p.name)) = none := by
    rw [List.find?_eq_none]
    intro q hq heq
    exact (h.toSpaced.not_mem_others hsplit).1
      (by simpa using List.mem_map.mpr ⟨q, hq, by simpa using heq⟩)
  simp [value?, hsplit, hl]

/-! ## Rewriting -/

theorem mem_rewrite (h : p ∈ (t.rewrite f).pieces) :
    ∃ x ∈ t.pieces, ∃ value, f x.name x.value = some value ∧ p = { x with value } := by
  obtain ⟨x, hx, heq⟩ := List.mem_filterMap.mp h
  obtain ⟨value, hvalue, rfl⟩ := Option.map_eq_some_iff.mp heq
  exact ⟨x, hx, value, hvalue, rfl⟩

theorem rewrite_congr (h : ∀ p ∈ t.pieces, f p.name p.value = g p.name p.value) :
    t.rewrite f = t.rewrite g := by
  have hpieces : t.pieces.filterMap (rewritePiece f) = t.pieces.filterMap (rewritePiece g) := by
    refine List.filterMap_congr fun p hp => ?_
    rw [rewritePiece, rewritePiece, h p hp]
  rw [rewrite, rewrite, hpieces]

theorem filterMap_rewritePiece_of_some {pieces : List WrittenPiece}
    (h : ∀ p ∈ pieces, f p.name p.value = some p.value) :
    pieces.filterMap (rewritePiece f) = pieces := by
  induction pieces with
  | nil => rfl
  | cons p pieces ih =>
    obtain ⟨hp, h⟩ := List.forall_mem_cons.mp h
    have hpiece : rewritePiece f p = some p := by rw [rewritePiece, hp]; rfl
    rw [List.filterMap_cons_some hpiece, ih h]

theorem rewrite_eq_self (h : ∀ p ∈ t.pieces, f p.name p.value = some p.value) :
    t.rewrite f = t := by
  rw [rewrite, filterMap_rewritePiece_of_some h]

theorem rewrite_rewrite (f g : ValueEdit) (t : StartTag) :
    (t.rewrite f).rewrite g = t.rewrite fun name value => (f name value).bind (g name) := by
  simp only [rewrite, List.filterMap_filterMap]
  congr 2
  funext p
  cases hvalue : f p.name p.value with
  | none => simp [rewritePiece, hvalue]
  | some value => simp [rewritePiece, hvalue]

/-! ## Tidy tags stay tidy -/

theorem Tidy.of_pieces (h : t.Tidy) {pieces : List WrittenPiece}
    (hpieces : ∀ p ∈ pieces, p.Regular ∧ NameChars p.name ∧ p.lead ≠ [])
    (hnodup : (pieces.map (·.name)).Nodup) : Tidy { t with pieces } where
  regular :=
    { name := h.regular.name
      pieces := fun p hp => (hpieces p hp).1
      nodup := hnodup
      first := fun p hp => (hpieces p (List.mem_of_mem_head? hp)).2.2
      blanks := h.regular.blanks }
  name := h.name
  names := fun p hp => (hpieces p hp).2.1
  spaced := fun p hp => (hpieces p hp).2.2

theorem sublist_names_rewrite (f : ValueEdit) (pieces : List WrittenPiece) :
    ((pieces.filterMap (rewritePiece f)).map (·.name)).Sublist (pieces.map (·.name)) := by
  induction pieces with
  | nil => exact List.Sublist.slnil
  | cons p pieces ih =>
    cases hvalue : f p.name p.value with
    | none =>
      rw [List.filterMap_cons_none (by rw [rewritePiece, hvalue]; rfl)]
      exact ih.cons _
    | some value =>
      rw [List.filterMap_cons_some (by rw [rewritePiece, hvalue]; rfl)]
      exact ih.cons_cons _

theorem Tidy.rewrite (h : t.Tidy)
    (hvalues : ∀ p ∈ t.pieces, ∀ value, f p.name p.value = some value →
      value = p.value ∨ ListValue value) : (t.rewrite f).Tidy := by
  refine h.of_pieces ?_ (h.regular.nodup.sublist (sublist_names_rewrite f t.pieces))
  intro p hp
  obtain ⟨x, hx, value, hvalue, rfl⟩ := mem_rewrite hp
  obtain ⟨hregular, hname, hlead⟩ := h.pieces_of_subset (List.Subset.refl _) x hx
  refine ⟨⟨hregular.skipped, hregular.lead, hregular.name, hregular.assign, ?_⟩, hname, hlead⟩
  obtain ⟨q, hquote, hq, hold⟩ := hregular.quoted
  refine ⟨q, hquote, hq, ?_⟩
  rcases hvalues x hx value hvalue with rfl | hnew
  · exact hold
  · rcases hq with rfl | rfl
    · exact hnew.double
    · exact hnew.single

theorem Tidy.append (h : t.Tidy) {pieces : List WrittenPiece}
    (hpieces : ∀ p ∈ pieces, p.Regular ∧ NameChars p.name ∧ p.lead ≠ [])
    (hnodup : (pieces.map (·.name)).Nodup)
    (hnew : ∀ p ∈ pieces, p.name ∉ t.pieces.map (·.name)) : (t.append pieces).Tidy := by
  refine h.of_pieces (fun p hp => ?_) ?_
  · rcases List.mem_append.mp hp with hp | hp
    · exact h.pieces_of_subset (List.Subset.refl _) p hp
    · exact hpieces p hp
  · rw [List.map_append, List.nodup_append]
    refine ⟨h.regular.nodup, hnodup, ?_⟩
    rintro x hx y hy rfl
    obtain ⟨p, hp, rfl⟩ := List.mem_map.mp hy
    exact hnew p hp hx

/-! ## Slots -/

/-- A start tag in which an attribute can be found by its spelling. -/
structure Clear (name : Text) (t : StartTag) : Prop where
  avoids : ∀ p ∈ t.pieces, Avoids name p.value
  value : ∀ p ∈ t.pieces, p.name = name → ListValue p.value

theorem Clear.rewrite (h : t.Clear name)
    (hvalues : ∀ p ∈ t.pieces, ∀ value, f p.name p.value = some value →
      value = p.value ∨ Avoids name value ∧ ListValue value) : (t.rewrite f).Clear name := by
  constructor
  · intro p hp
    obtain ⟨x, hx, value, hvalue, rfl⟩ := mem_rewrite hp
    rcases hvalues x hx value hvalue with rfl | ⟨hnew, -⟩
    · exact h.avoids x hx
    · exact hnew
  · intro p hp hname
    obtain ⟨x, hx, value, hvalue, rfl⟩ := mem_rewrite hp
    rcases hvalues x hx value hvalue with rfl | ⟨-, hnew⟩
    · exact h.value x hx hname
    · exact hnew

theorem Clear.append (h : t.Clear name) {pieces : List WrittenPiece}
    (havoids : ∀ p ∈ pieces, Avoids name p.value)
    (hvalue : ∀ p ∈ pieces, p.name = name → ListValue p.value) : (t.append pieces).Clear name :=
  ⟨List.forall_mem_append.mpr ⟨h.avoids, havoids⟩, List.forall_mem_append.mpr ⟨h.value, hvalue⟩⟩

/-- A start tag whose name ends in no blank. -/
def Solid (t : StartTag) : Prop :=
  ∀ c ∈ t.name.getLast?, isBlank c = false

/-- A value in quotes leaves nothing to trim behind it. -/
theorem trimEnd_upTo (hne : l ≠ [])
    (hquoted : ∀ p ∈ l, ∃ q, p.quote = some q ∧ (q = '"' ∨ q = '\'')) :
    trimEnd (t.upTo l) = t.upTo l := by
  apply trimEnd_of_last
  rcases List.eq_nil_or_concat' l with rfl | ⟨front, p, rfl⟩
  · exact absurd rfl hne
  · obtain ⟨q, hquote, hq⟩ := hquoted p (by simp)
    intro c hc
    have hlast : t.upTo (front ++ [p]) = ('<' :: (t.name ++ front.flatMap WrittenPiece.source) ++
        (p.skipped ++ (p.lead ++ (p.name ++ (p.assign ++ q :: p.value))))) ++ [q] := by
      simp [upTo, WrittenPiece.source, WrittenPiece.extent, WrittenPiece.quoted, hquote]
    rw [hlast, List.getLast?_concat] at hc
    cases hc
    rcases hq with rfl | rfl <;> rfl

theorem Solid.trimEnd_upTo (h : t.Solid) : trimEnd (t.upTo []) = t.upTo [] := by
  apply trimEnd_of_last
  intro c hc
  cases hname : t.name with
  | nil =>
    rw [upTo, hname] at hc
    cases hc
    rfl
  | cons d ds =>
    apply h c
    rw [upTo, List.flatMap_nil, List.append_nil, hname, List.getLast?_cons_cons] at hc
    rw [hname]
    exact hc

theorem Regular.trimEnd_upTo (h : t.Regular) (hl : l ⊆ t.pieces) (hend : l = [] → t.Solid) :
    trimEnd (t.upTo l) = t.upTo l := by
  by_cases hnil : l = []
  · rw [hnil]
    exact (hend hnil).trimEnd_upTo
  · refine StartTag.trimEnd_upTo hnil fun p hp => ?_
    obtain ⟨q, hquote, hq, -⟩ := (h.pieces p (hl hp)).quoted
    exact ⟨q, hquote, hq⟩

section

variable (h : t.Tidy) (hsplit : t.pieces = l ++ p :: r)

include h hsplit

theorem Tidy.eq_of_ne : ∀ x ∈ l ++ r, x.name ≠ p.name := by
  obtain ⟨hl, hr⟩ := h.toSpaced.not_mem_others hsplit
  intro x hx heq
  rcases List.mem_append.mp hx with hx | hx
  · exact hl (heq ▸ List.mem_map_of_mem hx)
  · exact hr (heq ▸ List.mem_map_of_mem hx)

theorem Tidy.rewrite_set (value : Text) :
    t.rewrite (.set p.name value) = { t with pieces := l ++ { p with value } :: r } := by
  have hothers : ∀ x ∈ l ++ r, ValueEdit.set p.name value x.name x.value = some x.value :=
    fun x hx => by simp [ValueEdit.set, h.eq_of_ne hsplit x hx]
  have hl := filterMap_rewritePiece_of_some fun x hx => hothers x (List.mem_append_left r hx)
  have hr := filterMap_rewritePiece_of_some fun x hx => hothers x (List.mem_append_right l hx)
  have hp : rewritePiece (.set p.name value) p = some { p with value } := by
    simp [rewritePiece, ValueEdit.set]
  rw [StartTag.rewrite, hsplit, List.filterMap_append, List.filterMap_cons_some hp, hl, hr]

theorem Tidy.rewrite_drop :
    t.rewrite (.drop (· = p.name)) = { t with pieces := l ++ r } := by
  have hothers : ∀ x ∈ l ++ r, ValueEdit.drop (· = p.name) x.name x.value = some x.value :=
    fun x hx => by simp [ValueEdit.drop, h.eq_of_ne hsplit x hx]
  have hl := filterMap_rewritePiece_of_some fun x hx => hothers x (List.mem_append_left r hx)
  have hr := filterMap_rewritePiece_of_some fun x hx => hothers x (List.mem_append_right l hx)
  have hp : rewritePiece (.drop (· = p.name)) p = none := by
    simp [rewritePiece, ValueEdit.drop]
  rw [StartTag.rewrite, hsplit, List.filterMap_append, List.filterMap_cons_none hp, hl, hr]

end

/-- **The slot of an attribute is its value.** Replacing the value sets it, and
removing the slot drops the attribute. -/
theorem Tidy.exists_slot (h : t.Tidy) (hclear : t.Clear name) (hvalue : t.value? name = some value)
    (selfClosing : Bool) :
    ∃ slot, ValueSlot.find? name (t.text selfClosing) = some slot ∧ slot.value = value ∧
      (∀ value', slot.replace value' = (t.rewrite (.set name value')).text selfClosing) ∧
      ((∀ p ∈ t.pieces.head?, p.name = name → t.Solid) →
        slot.remove = (t.rewrite (.drop (· = name))).text selfClosing) := by
  obtain ⟨l, p, r, hsplit, rfl, rfl⟩ := exists_split hvalue
  obtain ⟨hp, hl, -⟩ := mem_of_split hsplit
  obtain ⟨slot, hfind, hslot⟩ := h.toSpaced.find?_of_mem hsplit
    (fun x hx => (hclear.avoids x hx).spares) (hclear.value p hp rfl) selfClosing
  obtain ⟨q, hquote, -⟩ := (h.regular.pieces p hp).quoted
  refine ⟨slot, hfind, hslot.value, fun value' => ?_, fun hsolid => ?_⟩
  · rw [hslot.replace_eq (h.regular.pieces p hp).skipped, h.rewrite_set hsplit]
  · have hend : l = [] → t.Solid := by
      rintro rfl
      exact hsolid p (by rw [hsplit]; rfl) rfl
    rw [hslot.remove_eq hquote, h.regular.trimEnd_upTo hl hend, h.rewrite_drop hsplit, text_eq rfl]
    rfl

/-- There is no slot without an attribute. -/
theorem Tidy.find?_of_value?_eq_none (h : t.Tidy) (hclear : t.Clear name) (hne : name ≠ [])
    (hname : NameChars name) (hvalue : t.value? name = none) (selfClosing : Bool) :
    ValueSlot.find? name (t.text selfClosing) = none :=
  h.toSpaced.find?_eq_none hne hname (not_mem_of_value? hvalue)
    (fun x hx => (hclear.avoids x hx).spares) selfClosing

/-! ## The name of a tag -/

/-- A token has the name of the start tag that it is. -/
theorem name_of_text {token : Token} (hname : NameChars t.name)
    (hafter : ∀ c ∈ (t.pieces.flatMap WrittenPiece.source ++ t.blanks).head?, isSpace c = true)
    (hkind : token.kind = .ofStart selfClosing) (htext : token.text = t.text selfClosing) :
    token.name = t.name := by
  have hdrop : token.text.drop 1 =
      t.name ++ (t.pieces.flatMap WrittenPiece.source ++ t.blanks ++ closer selfClosing) := by
    rw [htext, text, content]
    simp
  have hend : ∀ c ∈ (t.pieces.flatMap WrittenPiece.source ++ t.blanks ++ closer selfClosing).head?,
      (isSpace c || c == '/' || c == '>') = true := by
    intro c hc
    generalize t.pieces.flatMap WrittenPiece.source ++ t.blanks = rest at hafter hc
    cases rest with
    | nil => cases selfClosing <;> cases hc <;> rfl
    | cons e es => simp [hafter c hc]
  have hread : token.name = (token.text.drop 1).takeWhile fun c =>
      !(isSpace c || c == '/' || c == '>') := by
    rw [Token.name, hkind]
    cases selfClosing <;> rfl
  rw [hread, hdrop, takeWhile_name hname hend]

/-! ## More and fewer attributes -/

/-- **Text goes into a tag behind its last attribute,** if nothing is trimmed off there. -/
theorem insertionHead_text (hblanks : Blanks t.blanks)
    (htrim : trimEnd (t.upTo t.pieces) = t.upTo t.pieces) (selfClosing : Bool) :
    insertionHead (.ofStart selfClosing) (t.text selfClosing) = t.upTo t.pieces := by
  have htext : t.text selfClosing = (t.upTo t.pieces ++ t.blanks) ++ closer selfClosing := by
    simp [text, content, upTo]
  have hlength : (TokenKind.ofStart selfClosing).closerLength =
      (closer selfClosing).length := by cases selfClosing <;> rfl
  rw [insertionHead, hlength, htext, List.length_append, Nat.add_sub_cancel, List.take_left,
    trimEnd_append_blanks _ hblanks, htrim]

/-- **Text that is inserted into a tag follows its last attribute,** if nothing is
trimmed off there. -/
theorem insertRaw_text (hblanks : Blanks t.blanks)
    (htrim : trimEnd (t.upTo t.pieces) = t.upTo t.pieces) (pieces : List WrittenPiece)
    (selfClosing : Bool) :
    insertRaw (.ofStart selfClosing)
        (pieces.flatMap WrittenPiece.source) (t.text selfClosing) =
      (t.append pieces).text selfClosing := by
  have htext : t.text selfClosing = (t.upTo t.pieces ++ t.blanks) ++ closer selfClosing := by
    simp [text, content, upTo]
  rw [insertRaw, insertionHead_text hblanks htrim, htext,
    List.append_assoc (t.upTo t.pieces) t.blanks, List.drop_left]
  simp [append, text, content, upTo]

theorem Regular.insertRaw_text (h : t.Regular) (hend : t.pieces = [] → t.Solid)
    (pieces : List WrittenPiece) (selfClosing : Bool) :
    insertRaw (.ofStart selfClosing)
        (pieces.flatMap WrittenPiece.source) (t.text selfClosing) =
      (t.append pieces).text selfClosing :=
  StartTag.insertRaw_text h.blanks.blanks (h.trimEnd_upTo (List.Subset.refl _) hend) pieces selfClosing

theorem pieces_rewrite_drop (names : Text → Bool) (t : StartTag) :
    (t.rewrite (.drop names)).pieces = t.pieces.filter fun p => !names p.name := by
  rw [rewrite, ← List.filterMap_eq_filter]
  refine List.filterMap_congr fun p _ => ?_
  cases hdrop : names p.name <;> simp [rewritePiece, ValueEdit.drop, hdrop, Option.guard]

/-- Where nothing was passed over, dropping attributes leaves the others. -/
theorem flatMap_kept {α : Type} (f : α → WrittenPiece) (drop : α → Bool) {l : List α}
    (h : ∀ x ∈ l, (f x).skipped = []) :
    (l.flatMap fun x => if drop x then (f x).skipped else (f x).source) =
      ((l.filter (!drop ·)).map f).flatMap WrittenPiece.source := by
  induction l with
  | nil => rfl
  | cons x l ih =>
    obtain ⟨hx, hl⟩ := List.forall_mem_cons.mp h
    rw [List.flatMap_cons, ih hl]
    cases hdrop : drop x with
    | true => simp [hdrop, hx]
    | false => simp [hdrop]

/-- **Dropping attributes of some names drops them from the tag,** if it is divided into
its attributes. -/
theorem without_text (h : TagText.ofText (t.text selfClosing) =
      ⟨'<' :: t.name, t.pieces, t.blanks ++ closer selfClosing⟩)
    (hskipped : ∀ p ∈ t.pieces, p.skipped = []) (names : Text → Bool) :
    ((TagText.ofText (t.text selfClosing)).without fun p => names p.name) =
      (t.rewrite (.drop names)).text selfClosing := by
  have hpieces := flatMap_kept (fun p => p) (fun p => names p.name) hskipped
  rw [List.map_id'] at hpieces
  rw [h, TagText.without, hpieces, ← pieces_rewrite_drop]
  simp only [text, content, List.cons_append, List.append_assoc]
  rfl

theorem Tidy.without_text (h : t.Tidy) (names : Text → Bool) (selfClosing : Bool) :
    ((TagText.ofText (t.text selfClosing)).without fun p => names p.name) =
      (t.rewrite (.drop names)).text selfClosing :=
  StartTag.without_text (h.ofText_text selfClosing) (fun p hp => (h.regular.pieces p hp).skipped)
    names

/-! ## What is written -/

theorem mem_source {c : Char} {p : WrittenPiece} :
    c ∈ p.source ↔ c ∈ p.skipped ∨ c ∈ p.lead ∨ c ∈ p.name ∨ c ∈ p.assign ∨ c ∈ p.quote.toList ∨
      c ∈ p.value := by
  simp only [WrittenPiece.source, WrittenPiece.extent, WrittenPiece.quoted, List.mem_append]
  tauto

theorem mem_content {c : Char} :
    c ∈ t.content ↔ c ∈ t.name ∨ (∃ p ∈ t.pieces, c ∈ p.source) ∨ c ∈ t.blanks := by
  rw [content, List.mem_append, List.mem_append, List.mem_flatMap]

theorem mem_content_of_mem_source {c : Char} (hp : p ∈ t.pieces) (hc : c ∈ p.source) :
    c ∈ t.content :=
  mem_content.mpr (Or.inr (Or.inl ⟨p, hp, hc⟩))

theorem mem_content_of_mem_value {c : Char} (hp : p ∈ t.pieces) (hc : c ∈ p.value) :
    c ∈ t.content :=
  mem_content_of_mem_source hp (mem_source.mpr (by simp [hc]))

theorem not_mem_content_rewrite {c : Char} (h : c ∉ t.content)
    (hvalues : ∀ p ∈ t.pieces, ∀ value ∈ f p.name p.value, c ∉ value) :
    c ∉ (t.rewrite f).content := by
  rw [mem_content] at h ⊢
  rintro (hname | ⟨p, hp, hc⟩ | hblanks)
  · exact h (Or.inl hname)
  · obtain ⟨x, hx, value, hvalue, rfl⟩ := mem_rewrite hp
    refine h (Or.inr (Or.inl ⟨x, hx, mem_source.mpr ?_⟩))
    rcases mem_source.mp hc with hc | hc | hc | hc | hc | hc
    · exact Or.inl hc
    · exact Or.inr (Or.inl hc)
    · exact Or.inr (Or.inr (Or.inl hc))
    · exact Or.inr (Or.inr (Or.inr (Or.inl hc)))
    · exact Or.inr (Or.inr (Or.inr (Or.inr (Or.inl hc))))
    · exact absurd hc (hvalues x hx value hvalue)
  · exact h (Or.inr (Or.inr hblanks))

theorem not_mem_content_append {c : Char} (h : c ∉ t.content) {pieces : List WrittenPiece}
    (hpieces : ∀ p ∈ pieces, c ∉ p.source) : c ∉ (t.append pieces).content := by
  rw [mem_content] at h ⊢
  rintro (hname | ⟨p, hp, hc⟩ | hblanks)
  · exact h (Or.inl hname)
  · rcases List.mem_append.mp hp with hp | hp
    · exact h (Or.inr (Or.inl ⟨p, hp, hc⟩))
    · exact hpieces p hp hc
  · exact h (Or.inr (Or.inr hblanks))

/-! ## What is read -/

theorem mapM_readEntry_rewrite {pieces : List WrittenPiece} {entries : List (Text × Text)}
    (h : (pieces.map WrittenPiece.entry).mapM readEntry = some entries)
    (hreads : ∀ p ∈ pieces, f.Reads p.name p.value) :
    ((pieces.filterMap (rewritePiece f)).map WrittenPiece.entry).mapM readEntry =
      some (entries.filterMap f.entry) := by
  induction pieces generalizing entries with
  | nil =>
    cases h
    rfl
  | cons p pieces ih =>
    obtain ⟨hp, hreads⟩ := List.forall_mem_cons.mp hreads
    obtain ⟨⟨name, read⟩, others, hfirst, hothers, rfl⟩ := mapM_readEntry_cons.mp h
    obtain ⟨hname, hread⟩ := readEntry_eq_some.mp hfirst
    dsimp only at hname hread
    rcases hp read hread with ⟨hnone, hnone'⟩ | ⟨written', read', hsome, hsome', hread'⟩
    · rw [List.filterMap_cons_none (by rw [rewritePiece, hnone]; rfl), ih hothers hreads,
        List.filterMap_cons_none]
      rw [ValueEdit.entry, hname]
      exact congrArg (Option.map _) hnone'
    · rw [List.filterMap_cons_some (b := { p with value := written' })
        (by rw [rewritePiece, hsome]; rfl), List.filterMap_cons_some (b := (name, read'))]
      · rw [List.map_cons, mapM_readEntry_cons]
        exact ⟨(name, read'), _, readEntry_eq_some.mpr ⟨hname, hread'⟩, ih hothers hreads, rfl⟩
      · rw [ValueEdit.entry, hname]
        exact congrArg (Option.map _) hsome'

/-- **What is read from a rewritten tag is rewritten.** -/
theorem Regular.entriesOf?_rewrite (h : t.Regular) (h' : (t.rewrite f).Regular)
    {entries : List (Text × Text)} (hentries : entriesOf? t.content = some entries)
    (hreads : ∀ p ∈ t.pieces, f.Reads p.name p.value) :
    entriesOf? (t.rewrite f).content = some (entries.filterMap f.entry) := by
  rw [h.entriesOf?_content] at hentries
  rw [h'.entriesOf?_content]
  exact mapM_readEntry_rewrite hentries hreads

theorem mapM_readEntry_append {first second : List (Text × Text)} {a b : List (Text × Text)}
    (ha : first.mapM readEntry = some a) (hb : second.mapM readEntry = some b) :
    (first ++ second).mapM readEntry = some (a ++ b) := by
  rw [List.mapM_append, ha, hb]
  rfl

/-- **What is read from more attributes comes last.** -/
theorem Regular.entriesOf?_append (h : t.Regular) {pieces : List WrittenPiece}
    (h' : (t.append pieces).Regular) {entries more : List (Text × Text)}
    (hentries : entriesOf? t.content = some entries)
    (hmore : (pieces.map WrittenPiece.entry).mapM readEntry = some more) :
    entriesOf? (t.append pieces).content = some (entries ++ more) := by
  rw [h.entriesOf?_content] at hentries
  rw [h'.entriesOf?_content, append, List.map_append]
  exact mapM_readEntry_append hentries hmore

end StartTag

end SkinMarkup
