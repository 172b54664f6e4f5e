import SkinMarkup.Proofs.Event.Whole
import SkinMarkup.Proofs.Markup.Basic

/-!
# Regular start tags

The content of a regular start tag is a name, attributes in quotes and blanks.
Each part closes what it opens, so that the tag is cut off whole
(`Regular.whole_start`), and its attributes are read as they are written
(`Regular.entriesOf?_content`). Every start tag that can be read is regular if
its names are safe: `exists_startTag`.
-/

namespace SkinMarkup

/-- The kind of the token that starts an element. -/
def TokenKind.ofStart (selfClosing : Bool) : TokenKind :=
  if selfClosing then .selfClosing else .opening

/-! ## Safe names -/

/-- A character that ends no name, closes no tag and opens no quote. -/
def isSafeChar (c : Char) : Bool :=
  !(isMarkupSpace c || c == '/' || c == '=' || c == '<' || c == '>' || c == '"' || c == '\'')

/-- A name that can be written in a tag. -/
def isSafeName (name : Text) : Bool :=
  !name.isEmpty && name.all isSafeChar

theorem isSafeChar_iff {c : Char} :
    isSafeChar c = true ↔ isMarkupSpace c = false ∧ c ≠ '/' ∧ c ≠ '=' ∧ c ≠ '<' ∧ c ≠ '>' ∧
      c ≠ '"' ∧ c ≠ '\'' := by
  simp [isSafeChar, and_assoc]

theorem isSafeName_iff {name : Text} :
    isSafeName name = true ↔ name ≠ [] ∧ ∀ c ∈ name, isSafeChar c = true := by
  simp [isSafeName]

/-- White space of the markup grammar. -/
def MarkupSpaces (t : Text) : Prop :=
  ∀ c ∈ t, isMarkupSpace c = true

theorem isMarkupSpace_iff {c : Char} :
    isMarkupSpace c = true ↔ c = ' ' ∨ c = '\t' ∨ c = '\n' ∨ c = '\r' := by
  simp [isMarkupSpace, or_assoc]

/-! ## Closed parts of a tag -/

namespace Event

/-- A part of a tag that leaves no quote open and does not end the tag. -/
def Closed (t : Text) : Prop :=
  ∀ more, cutTag none (t ++ more) = (cutTag none more).map fun (s, rest) => (t ++ s, rest)

theorem closed_nil : Closed [] := by
  intro more
  simp

theorem Closed.append {s t : Text} (hs : Closed s) (ht : Closed t) : Closed (s ++ t) := by
  intro more
  rw [List.append_assoc, hs, ht, Option.map_map]
  simp [Function.comp_def]

theorem closed_of_plain {t : Text} (h : ∀ c ∈ t, c ≠ '>' ∧ c ≠ '"' ∧ c ≠ '\'') : Closed t := by
  have hcut : cutTag none (t ++ '>' :: []) = some (t, []) := cutTag_of_plain h
  exact cutTag_append hcut

theorem cutTag_some_append {q : Char} {value : Text} (h : q ∉ value) (more : Text) :
    cutTag (some q) (value ++ q :: more) =
      (cutTag none more).map fun (s, rest) => (value ++ q :: s, rest) := by
  induction value with
  | nil => simp [cutTag]
  | cons c cs ih =>
    have hc : c ≠ q := fun e => h (e ▸ List.mem_cons_self)
    have hcs : q ∉ cs := fun hmem => h (List.mem_cons_of_mem c hmem)
    rw [List.cons_append, cutTag, if_neg hc, ih hcs, Option.map_map]
    rfl

theorem closed_quoted {q : Char} {value : Text} (hq : q = '"' ∨ q = '\'') (h : q ∉ value) :
    Closed (q :: value ++ [q]) := by
  intro more
  have hne : q ≠ '>' := by
    rintro rfl
    simp at hq
  rw [List.cons_append, List.cons_append, List.append_assoc, List.singleton_append, cutTag,
    if_neg hne, if_pos hq, cutTag_some_append h, Option.map_map]
  simp [Function.comp_def]

theorem Closed.cutTag_eq {t : Text} (h : Closed t) (rest : Text) :
    cutTag none (t ++ '>' :: rest) = some (t, rest) := by
  rw [h]
  simp [cutTag]

/-- A character that makes markup something else than a start tag. -/
def Starts (t : Text) : Prop :=
  ∀ c ∈ t.head?, c ≠ '!' ∧ c ≠ '/' ∧ c ≠ '?'

instance (t : Text) : Decidable (Starts t) :=
  inferInstanceAs (Decidable (∀ c ∈ t.head?, _))

theorem Starts.append {s : Text} (h : Starts s) (hne : s ≠ []) (t : Text) : Starts (s ++ t) := by
  obtain ⟨c, cs, rfl⟩ := List.exists_cons_of_ne_nil hne
  exact h

theorem whole_opening {content : Text} (hclosed : Closed content) (hstarts : Starts content)
    (hlast : content.getLast? ≠ some '/') : (opening content).Whole := by
  intro rest
  have hstarts' : Starts (content ++ '>' :: rest) := by
    cases content with
    | nil =>
      rintro c ⟨⟩
      decide
    | cons c cs => exact hstarts
  have hbefore : before? ['/'] content = none := by
    cases h : before? ['/'] content with
    | none => rfl
    | some init =>
      rw [before?_eq_some h] at hlast
      simp at hlast
  refine ⟨content ++ '>' :: rest, by simp [source], ?_⟩
  rw [next, if_pos rfl, nextMarkup_eq_nextOpening hstarts', nextOpening, hclosed.cutTag_eq]
  dsimp only
  rw [hbefore]

theorem whole_empty {content : Text} (hclosed : Closed content) (hstarts : Starts content)
    (hne : content ≠ []) : (empty content).Whole := by
  intro rest
  have hslash : Closed ['/'] := closed_of_plain (by simp)
  refine ⟨content ++ ['/'] ++ '>' :: rest, by simp [source], ?_⟩
  rw [next, if_pos rfl, List.append_assoc, nextMarkup_eq_nextOpening (hstarts.append hne _),
    ← List.append_assoc, nextOpening, (hclosed.append hslash).cutTag_eq]
  dsimp only
  rw [before?_append]

theorem whole_closing {content : Text} (hclosed : Closed content) : (closing content).Whole := by
  intro rest
  refine ⟨'/' :: (content ++ '>' :: rest), by simp [source], ?_⟩
  rw [next, if_pos rfl, nextMarkup, nextClosing, hclosed.cutTag_eq]

/-- Markup that starts otherwise is no start tag. -/
theorem starts_of_nextMarkup {cs rest : Text} {event : Event}
    (h : nextMarkup cs = .ok (event, rest)) (hkind : event.elementKind? ≠ none)
    (hclosing : event.elementKind? ≠ some .closing) : Starts cs := by
  unfold nextMarkup at h
  split at h
  · exfalso
    unfold nextDeclaration nextCdata nextComment nextDoctype at h
    repeat' split at h
    all_goals cases h
    all_goals exact hkind rfl
  · unfold nextClosing at h
    split at h
    · cases h
      exact absurd rfl hclosing
    · cases h
  · unfold nextInstruction at h
    repeat' split at h
    all_goals cases h
    exact absurd rfl hkind
  · next h₁ h₂ h₃ =>
    intro c hc
    obtain ⟨ds, rfl⟩ := List.head?_eq_some_iff.mp hc
    exact ⟨fun e => h₁ ds (e ▸ rfl), fun e => h₂ ds (e ▸ rfl), fun e => h₃ ds (e ▸ rfl)⟩

/-- What is known of a start tag that is cut off whole. -/
theorem Whole.starts {content : Text} (selfClosing : Bool)
    (h : (start selfClosing content).Whole) : Starts content := by
  have hmarkup : ∃ cs, (Event.start selfClosing content).source ++ [] = '<' :: cs ∧
      next '<' cs = .ok (Event.start selfClosing content, []) := by
    cases selfClosing with
    | false => exact h []
    | true => exact h []
  obtain ⟨cs, hsource, hnext⟩ := hmarkup
  rw [next, if_pos rfl] at hnext
  have hstarts : Starts cs := by
    apply starts_of_nextMarkup hnext <;> cases selfClosing <;> simp [Event.start, elementKind?]
  intro c hc
  obtain ⟨ds, rfl⟩ := List.head?_eq_some_iff.mp hc
  apply hstarts c
  cases selfClosing <;> simp [Event.start, source] at hsource <;> rw [← hsource] <;> rfl

end Event

/-! ## Regular attributes -/

namespace WrittenPiece

/-- An attribute as the reader of start tags takes it: a name of any characters that are
no white space and a quoted value, with white space before and between the two. -/
structure Marked (p : WrittenPiece) : Prop where
  skipped : p.skipped = []
  lead : MarkupSpaces p.lead
  named : p.name ≠ []
  name : ∀ c ∈ p.name, isMarkupSpace c = false
  assign : ∃ l r, p.assign = l ++ '=' :: r ∧ MarkupSpaces l ∧ MarkupSpaces r
  quoted : ∃ q, p.quote = some q ∧ (q = '"' ∨ q = '\'') ∧ q ∉ p.value

/-- An attribute with a safe name and a quoted value. -/
structure Regular (p : WrittenPiece) : Prop where
  skipped : p.skipped = []
  lead : MarkupSpaces p.lead
  name : isSafeName p.name = true
  assign : ∃ l r, p.assign = l ++ '=' :: r ∧ MarkupSpaces l ∧ MarkupSpaces r
  quoted : ∃ q, p.quote = some q ∧ (q = '"' ∨ q = '\'') ∧ q ∉ p.value

theorem Marked.regular {p : WrittenPiece} (h : p.Marked) (hname : isSafeName p.name = true) :
    p.Regular :=
  ⟨h.skipped, h.lead, hname, h.assign, h.quoted⟩

/-- A name with its value, as they are written. -/
def entry (p : WrittenPiece) : Text × Text :=
  (p.name, p.value)

/-- The attribute `name="value"` behind a space. -/
def usual (name value : Text) : WrittenPiece :=
  ⟨[], [' '], name, ['='], value, some '"'⟩

theorem regular_usual {name value : Text} (hname : isSafeName name = true) (hvalue : '"' ∉ value) :
    (usual name value).Regular := by
  refine ⟨rfl, ?_, hname, ⟨[], [], rfl, ?_, ?_⟩, '"', rfl, Or.inl rfl, hvalue⟩
  · intro c hc
    rw [List.mem_singleton.mp hc]
    rfl
  · rintro c ⟨⟩
  · rintro c ⟨⟩

variable {p : WrittenPiece}

/-- The parts of a regular attribute, one after the other. -/
theorem Regular.exists_source (h : p.Regular) :
    ∃ l r q, p.source = p.lead ++ (p.name ++ (l ++ '=' :: (r ++ (q :: p.value ++ [q])))) ∧
      MarkupSpaces l ∧ MarkupSpaces r ∧ p.assign = l ++ '=' :: r ∧ p.quote = some q ∧
      (q = '"' ∨ q = '\'') ∧ q ∉ p.value := by
  obtain ⟨l, r, hassign, hl, hr⟩ := h.assign
  obtain ⟨q, hquote, hq, hvalue⟩ := h.quoted
  refine ⟨l, r, q, ?_, hl, hr, hassign, hquote, hq, hvalue⟩
  simp [source, extent, WrittenPiece.quoted, h.skipped, hassign, hquote]

theorem closed_of_markupSpaces {t : Text} (h : MarkupSpaces t) : Event.Closed t := by
  apply Event.closed_of_plain
  intro c hc
  rcases isMarkupSpace_iff.mp (h c hc) with rfl | rfl | rfl | rfl <;> decide

theorem closed_of_isSafeName {name : Text} (h : isSafeName name = true) : Event.Closed name := by
  apply Event.closed_of_plain
  intro c hc
  obtain ⟨-, -, -, -, h₁, h₂, h₃⟩ := isSafeChar_iff.mp ((isSafeName_iff.mp h).2 c hc)
  exact ⟨h₁, h₂, h₃⟩

theorem Regular.closed (h : p.Regular) : Event.Closed p.source := by
  obtain ⟨l, r, q, hsource, hl, hr, -, -, hq, hvalue⟩ := h.exists_source
  have hequals : Event.Closed ['='] := Event.closed_of_plain (by simp)
  rw [hsource, ← List.singleton_append]
  exact (closed_of_markupSpaces h.lead).append ((closed_of_isSafeName h.name).append
    ((closed_of_markupSpaces hl).append (hequals.append ((closed_of_markupSpaces hr).append
      (Event.closed_quoted hq hvalue)))))

end WrittenPiece

/-! ## Reading attributes -/

namespace WrittenAttribute

variable {p : WrittenPiece} {total : Nat} {seen : List WrittenAttribute} {rest : Text}

theorem readValue_quoted {r value : Text} {q : Char} (hr : MarkupSpaces r)
    (hq : q = '"' ∨ q = '\'') (hvalue : q ∉ value) (rest : Text) :
    readValue total (r ++ (q :: value ++ [q]) ++ rest) = .ok (value, rest) := by
  have hfirst : ∀ c ∈ (q :: (value ++ q :: rest)).head?, isMarkupSpace c = false := by
    rintro c ⟨⟩
    rcases hq with rfl | rfl <;> rfl
  have hdrop : (r ++ (q :: value ++ [q]) ++ rest).dropWhile isMarkupSpace =
      q :: (value ++ q :: rest) := by
    rw [← dropWhile_append_eq_right hr hfirst]
    simp
  rw [readValue, hdrop]
  dsimp only
  rw [if_pos hq, cutAt_append hvalue]

/-- **A regular attribute is read as it is written,** if its name is new. -/
theorem readOne_regular (total : Nat) (h : p.Regular) (hnew : p.name ∉ seen.map (·.name)) (rest : Text) :
    ∃ c cs a, (p.source ++ rest).dropWhile isMarkupSpace = c :: cs ∧
      readOne total seen c cs = .ok (a, rest) ∧ a.entry = p.entry := by
  obtain ⟨l, r, q, hsource, hl, hr, -, -, hq, hvalue⟩ := h.exists_source
  obtain ⟨hne, hsafe⟩ := isSafeName_iff.mp h.name
  obtain ⟨c, name, hname⟩ := List.exists_cons_of_ne_nil hne
  have hfirst : isMarkupSpace c = false :=
    (isSafeChar_iff.mp (hsafe c (hname ▸ List.mem_cons_self))).1
  let after := l ++ '=' :: (r ++ (q :: p.value ++ [q]) ++ rest)
  have hstart : (p.source ++ rest).dropWhile isMarkupSpace = c :: (name ++ after) := by
    have hsplit : p.source ++ rest = p.lead ++ (c :: (name ++ after)) := by
      rw [hsource, hname]
      simp [after]
    rw [hsplit]
    apply dropWhile_append_eq_right h.lead
    rintro d ⟨⟩
    exact hfirst
  have hin : ∀ d ∈ name, (!endsName d) = true := by
    intro d hd
    obtain ⟨h₁, -, h₂, -⟩ := isSafeChar_iff.mp (hsafe d (hname ▸ List.mem_cons_of_mem c hd))
    simp [endsName, h₁, h₂]
  have hafter : ∀ d ∈ after.head?, (!endsName d) = false := by
    intro d hd
    cases l with
    | nil =>
      cases hd
      rfl
    | cons e es =>
      cases hd
      have he := hl d List.mem_cons_self
      simp [endsName, he]
  have htake : (name ++ after).takeWhile (!endsName ·) = name :=
    takeWhile_append_eq_left hin hafter
  have hdrop : (name ++ after).dropWhile (!endsName ·) = after :=
    dropWhile_append_eq_right hin hafter
  have hequals : after.dropWhile isMarkupSpace = '=' :: (r ++ (q :: p.value ++ [q]) ++ rest) := by
    apply dropWhile_append_eq_right hl
    rintro d ⟨⟩
    rfl
  have hfind : (seen.find? fun a => a.name = c :: name) = none := by
    rw [List.find?_eq_none]
    intro a ha heq
    exact hnew (List.mem_map.mpr ⟨a, ha, by rw [hname]; simpa using heq⟩)
  refine ⟨c, name ++ after, ⟨c :: name, p.value, total - width (c :: (name ++ after))⟩, hstart, ?_, ?_⟩
  · unfold readOne
    rw [hdrop, htake, hequals]
    dsimp only
    rw [if_pos rfl, hfind]
    dsimp only
    rw [readValue_quoted hr hq hvalue]
    rfl
  · rw [WrittenPiece.entry, hname]
    rfl

/-- **Regular attributes with different names are read as they are written.** -/
theorem readFrom_regular (total : Nat) {pieces : List WrittenPiece} {blanks : Text}
    (hpieces : ∀ p ∈ pieces, p.Regular)
    (hnodup : (seen.map (·.name) ++ pieces.map (·.name)).Nodup) (hblanks : MarkupSpaces blanks) :
    ∃ written, readFrom total seen (pieces.flatMap WrittenPiece.source ++ blanks) = (written, none) ∧
      written.map entry = pieces.map WrittenPiece.entry := by
  induction pieces generalizing seen with
  | nil =>
    refine ⟨[], readFrom_of_dropWhile_eq_nil ?_, rfl⟩
    rw [List.flatMap_nil, List.nil_append]
    exact List.dropWhile_eq_nil_iff.mpr hblanks
  | cons p pieces ih =>
    obtain ⟨hp, hothers⟩ := List.forall_mem_cons.mp hpieces
    have hnew : p.name ∉ seen.map (·.name) := by
      intro hmem
      rw [List.map_cons, List.nodup_append] at hnodup
      exact hnodup.2.2 _ hmem _ List.mem_cons_self rfl
    obtain ⟨c, cs, a, hstart, hread, hentry⟩ := readOne_regular total hp hnew
      (pieces.flatMap WrittenPiece.source ++ blanks)
    have hname : a.name = p.name := congrArg Prod.fst hentry
    have hnodup' : ((seen ++ [a]).map (·.name) ++ pieces.map (·.name)).Nodup := by
      simpa [hname] using hnodup
    obtain ⟨written, hwritten, hmap⟩ := ih hothers hnodup'
    refine ⟨a :: written, ?_, by rw [List.map_cons, List.map_cons, hmap, hentry]⟩
    rw [List.flatMap_cons, List.append_assoc, readFrom_of_readOne hstart hread, hwritten]

theorem exists_of_readValue {t value : Text} (h : readValue total t = .ok (value, rest)) :
    ∃ r q, t = r ++ (q :: value ++ [q]) ++ rest ∧ MarkupSpaces r ∧ (q = '"' ∨ q = '\'') ∧
      q ∉ value := by
  have ht := List.takeWhile_append_dropWhile (p := isMarkupSpace) (l := t)
  unfold readValue at h
  split at h
  · cases h
  · next q more heq =>
    split at h
    · next hq =>
      split at h
      · next parts hcut =>
        cases h
        refine ⟨t.takeWhile isMarkupSpace, q, ?_, List.all_eq_true.mp List.all_takeWhile, hq,
          not_mem_of_cutAt hcut⟩
        rw [heq, cutAt_eq_some hcut] at ht
        refine ht.symm.trans ?_
        simp
      · cases h
    · cases h

/-- **What is read as an attribute is written as one,** and its name is new. -/
theorem exists_piece_of_readOne {t : Text} {c : Char} {cs : Text} {a : WrittenAttribute}
    (hstart : t.dropWhile isMarkupSpace = c :: cs) (h : readOne total seen c cs = .ok (a, rest)) :
    ∃ p : WrittenPiece, t = p.source ++ rest ∧ p.Marked ∧ p.entry = a.entry ∧
      a.name ∉ seen.map (·.name) := by
  obtain ⟨hname, hfind, more, hmore, hvalue⟩ := readOne_eq_ok h
  obtain ⟨r, q, rfl, hr, hq, hmem⟩ := exists_of_readValue hvalue
  let l := (cs.dropWhile (!endsName ·)).takeWhile isMarkupSpace
  have hfirst : isMarkupSpace c = false := by
    simpa [hstart] using List.head?_dropWhile_not isMarkupSpace t
  have hspaceless : ∀ d ∈ a.name, isMarkupSpace d = false := by
    intro d hd
    rw [hname, List.mem_cons] at hd
    rcases hd with rfl | hd
    · exact hfirst
    · have hin := List.mem_takeWhile_imp hd
      simp only [endsName, Bool.not_or, Bool.and_eq_true, Bool.not_eq_true'] at hin
      exact hin.2
  have hnamed : a.name ≠ [] := by
    rw [hname]
    exact List.cons_ne_nil _ _
  refine ⟨⟨[], t.takeWhile isMarkupSpace, a.name, l ++ '=' :: r, a.value, some q⟩, ?_,
    ⟨rfl, List.all_eq_true.mp List.all_takeWhile, hnamed, hspaceless,
      ⟨l, r, rfl, List.all_eq_true.mp List.all_takeWhile, hr⟩, q, rfl, hq, hmem⟩, rfl, ?_⟩
  · have h₁ := List.takeWhile_append_dropWhile (p := isMarkupSpace) (l := t)
    have h₂ := List.takeWhile_append_dropWhile (p := (!endsName ·)) (l := cs)
    have h₃ := List.takeWhile_append_dropWhile (p := isMarkupSpace)
      (l := cs.dropWhile (!endsName ·))
    rw [hmore] at h₃
    rw [hstart, ← h₂, ← h₃] at h₁
    refine h₁.symm.trans ?_
    simp [l, WrittenPiece.source, WrittenPiece.extent, WrittenPiece.quoted, hname]
  · intro hmem
    obtain ⟨b, hb, heq⟩ := List.mem_map.mp hmem
    simpa [heq] using List.find?_eq_none.mp hfind b hb

/-- **What can be read are marked attributes and blanks.** -/
theorem exists_pieces_of_readFrom {t : Text} {written : List WrittenAttribute}
    (h : readFrom total seen t = (written, none)) (hseen : (seen.map (·.name)).Nodup) :
    ∃ (pieces : List WrittenPiece) (blanks : Text),
      t = pieces.flatMap WrittenPiece.source ++ blanks ∧ (∀ p ∈ pieces, p.Marked) ∧
        MarkupSpaces blanks ∧ pieces.map WrittenPiece.entry = written.map entry ∧
        (seen.map (·.name) ++ written.map (·.name)).Nodup := by
  fun_induction readFrom total seen t generalizing written with
  | case1 seen t hstart =>
    cases h
    exact ⟨[], t, rfl, by rintro p ⟨⟩, List.dropWhile_eq_nil_iff.mp hstart, rfl, by simpa using hseen⟩
  | case2 => cases h
  | case3 seen t c cs hstart a rest hread _ others fault hothers ih =>
    cases h
    obtain ⟨p, rfl, hp, hentry, hnew⟩ := exists_piece_of_readOne hstart hread
    have hseen' : ((seen ++ [a]).map (·.name)).Nodup := by
      rw [List.map_append, List.map_singleton, List.nodup_append]
      refine ⟨hseen, by simp, ?_⟩
      intro x hx y hy heq
      rw [List.mem_singleton] at hy
      exact hnew (hy ▸ heq ▸ hx)
    obtain ⟨pieces, blanks, rfl, hpieces, hblanks, hentries, hnodup⟩ := ih hothers hseen'
    refine ⟨p :: pieces, blanks, ?_, List.forall_mem_cons.mpr ⟨hp, hpieces⟩, hblanks, ?_, ?_⟩
    · rw [List.flatMap_cons, List.append_assoc]
    · rw [List.map_cons, List.map_cons, hentry, hentries]
    · simpa using hnodup

theorem map_name_of_map_entry {pieces : List WrittenPiece} {written : List WrittenAttribute}
    (h : pieces.map WrittenPiece.entry = written.map entry) :
    pieces.map (·.name) = written.map (·.name) := by
  have hnames := congrArg (List.map Prod.fst) h
  rwa [List.map_map, List.map_map] at hnames

/-- The name of an element ends where the white space before an attribute starts. -/
theorem lead_ne_nil_of_dropWhile {content rest : Text} {pieces : List WrittenPiece}
    (h : content.dropWhile (!isMarkupSpace ·) = pieces.flatMap WrittenPiece.source ++ rest)
    (hpieces : ∀ p ∈ pieces, p.Marked) : ∀ p ∈ pieces.head?, p.lead ≠ [] := by
  intro p hp hlead
  obtain ⟨others, rfl⟩ := List.head?_eq_some_iff.mp hp
  have hmarked := hpieces p List.mem_cons_self
  obtain ⟨c, cs, hcs⟩ := List.exists_cons_of_ne_nil hmarked.named
  have hc := hmarked.name c (hcs ▸ List.mem_cons_self)
  have hfirst := List.head?_dropWhile_not (!isMarkupSpace ·) content
  rw [h, List.flatMap_cons, WrittenPiece.source, hmarked.skipped, WrittenPiece.extent, hlead,
    hcs] at hfirst
  simp [hc] at hfirst

end WrittenAttribute

/-! ## Start tags -/

/-- The parts of the content of a start tag. -/
structure StartTag where
  name : Text
  pieces : List WrittenPiece
  blanks : Text

namespace StartTag

/-- What stands between the brackets of the tag. -/
def content (t : StartTag) : Text :=
  t.name ++ (t.pieces.flatMap WrittenPiece.source ++ t.blanks)

/-- A start tag with different attributes of safe names in quotes. Blanks
separate its name from the first one. -/
structure Regular (t : StartTag) : Prop where
  name : isSafeName t.name = true
  pieces : ∀ p ∈ t.pieces, p.Regular
  nodup : (t.pieces.map (·.name)).Nodup
  first : ∀ p ∈ t.pieces.head?, p.lead ≠ []
  blanks : MarkupSpaces t.blanks

variable {t : StartTag}

/-- What follows the name starts with a blank. -/
theorem Regular.head?_after_name (h : t.Regular) :
    ∀ c ∈ (t.pieces.flatMap WrittenPiece.source ++ t.blanks).head?, isMarkupSpace c = true := by
  intro c hc
  cases hpieces : t.pieces with
  | nil =>
    rw [hpieces] at hc
    exact h.blanks c (List.mem_of_mem_head? hc)
  | cons p pieces =>
    have hp := h.pieces p (hpieces ▸ List.mem_cons_self)
    obtain ⟨d, ds, hlead⟩ := List.exists_cons_of_ne_nil (h.first p (by rw [hpieces]; rfl))
    obtain ⟨l, r, q, hsource, -⟩ := hp.exists_source
    rw [hpieces, List.flatMap_cons, hsource, hlead] at hc
    cases hc
    exact hp.lead c (hlead ▸ List.mem_cons_self)

theorem Regular.space_of_mem_name (h : t.Regular) :
    ∀ c ∈ t.name, (!isMarkupSpace c) = true := by
  intro c hc
  rw [(isSafeChar_iff.mp ((isSafeName_iff.mp h.name).2 c hc)).1]
  rfl

theorem Regular.elementName_content (h : t.Regular) :
    WrittenAttribute.elementName t.content = t.name :=
  takeWhile_append_eq_left h.space_of_mem_name fun c hc => by simp [h.head?_after_name c hc]

theorem Regular.dropWhile_content (h : t.Regular) :
    t.content.dropWhile (!isMarkupSpace ·) = t.pieces.flatMap WrittenPiece.source ++ t.blanks :=
  dropWhile_append_eq_right h.space_of_mem_name fun c hc => by simp [h.head?_after_name c hc]

/-- **The attributes of a regular start tag are read as they are written.** -/
theorem Regular.entriesOf?_content (h : t.Regular) :
    entriesOf? t.content = (t.pieces.map WrittenPiece.entry).mapM readEntry := by
  have hnodup : (([] : List WrittenAttribute).map (·.name) ++ t.pieces.map (·.name)).Nodup := h.nodup
  obtain ⟨written, hread, hentries⟩ := WrittenAttribute.readFrom_regular (width t.content)
    h.pieces hnodup h.blanks
  have hall : WrittenAttribute.readAll t.content = (written, none) := by
    rw [WrittenAttribute.readAll, h.dropWhile_content, hread]
  rw [entriesOf?, hall]
  dsimp only
  rw [hentries]

theorem Regular.closed_content (h : t.Regular) : Event.Closed t.content := by
  have hpieces : ∀ pieces : List WrittenPiece, (∀ p ∈ pieces, p.Regular) →
      Event.Closed (pieces.flatMap WrittenPiece.source) := by
    intro pieces hall
    induction pieces with
    | nil => exact Event.closed_nil
    | cons p pieces ih =>
      obtain ⟨hp, hall⟩ := List.forall_mem_cons.mp hall
      exact hp.closed.append (ih hall)
  exact (WrittenPiece.closed_of_isSafeName h.name).append
    ((hpieces t.pieces h.pieces).append (WrittenPiece.closed_of_markupSpaces h.blanks))

/-- The content of a regular start tag ends in a name, a quote or a blank. -/
theorem Regular.getLast?_content (h : t.Regular) : t.content.getLast? ≠ some '/' := by
  intro hlast
  obtain ⟨hne, hsafe⟩ := isSafeName_iff.mp h.name
  rcases List.eq_nil_or_concat t.blanks with hnil | ⟨blanks, c, hblanks⟩
  · rcases List.eq_nil_or_concat t.pieces with hpieces | ⟨pieces, p, hpieces⟩
    · rw [content, hpieces, hnil, List.flatMap_nil, List.append_nil, List.append_nil] at hlast
      exact (isSafeChar_iff.mp (hsafe '/' (List.mem_of_getLast? hlast))).2.1 rfl
    · have hp := h.pieces p (by rw [hpieces]; simp)
      obtain ⟨l, r, q, hsource, -, -, -, -, hq, -⟩ := hp.exists_source
      have hend : t.content = t.name ++ (pieces.flatMap WrittenPiece.source ++ (p.lead ++
          (p.name ++ (l ++ '=' :: (r ++ q :: p.value))))) ++ [q] := by
        rw [content, hpieces, hnil]
        simp [hsource]
      rw [hend, List.getLast?_concat, Option.some.injEq] at hlast
      subst hlast
      simp at hq
  · have hc := h.blanks c (by rw [hblanks]; simp)
    have hend : t.content = t.name ++ (t.pieces.flatMap WrittenPiece.source ++ blanks) ++ [c] := by
      rw [content, hblanks]
      simp
    rw [hend, List.getLast?_concat, Option.some.injEq] at hlast
    subst hlast
    cases hc

/-- **A regular start tag is cut off whole.** -/
theorem Regular.whole_start (h : t.Regular) (hstarts : Event.Starts t.name) (selfClosing : Bool) :
    (Event.start selfClosing t.content).Whole := by
  have hne := (isSafeName_iff.mp h.name).1
  have hstarts' : Event.Starts t.content := hstarts.append hne _
  cases selfClosing with
  | false => exact Event.whole_opening h.closed_content hstarts' h.getLast?_content
  | true => exact Event.whole_empty h.closed_content hstarts' (List.append_ne_nil_of_left_ne_nil hne _)

end StartTag

/-- **A start tag that can be read is regular** if its names are safe. -/
theorem exists_startTag {content : Text} {entries : List (Text × Text)}
    (hentries : entriesOf? content = some entries)
    (hname : isSafeName (WrittenAttribute.elementName content) = true)
    (hsafe : ∀ e ∈ entries, isSafeName e.1 = true) :
    ∃ t : StartTag, t.Regular ∧ t.content = content := by
  unfold entriesOf? at hentries
  rcases hread : WrittenAttribute.readAll content with ⟨written, _ | fault⟩
  · rw [hread] at hentries
    dsimp only at hentries
    have hfst := map_fst_of_mapM_readEntry hentries
    have hnames : ∀ a ∈ written, isSafeName a.name = true := by
      intro a ha
      have hmem : a.name ∈ entries.map Prod.fst := by
        rw [hfst, List.map_map]
        exact List.mem_map_of_mem (f := Prod.fst ∘ WrittenAttribute.entry) ha
      obtain ⟨e, he, heq⟩ := List.mem_map.mp hmem
      exact heq ▸ hsafe e he
    obtain ⟨pieces, blanks, hsplit, hmarked, hblanks, hpairs, hnodup⟩ :=
      WrittenAttribute.exists_pieces_of_readFrom hread List.nodup_nil
    have hpieces : ∀ p ∈ pieces, p.Regular := by
      intro p hp
      obtain ⟨a, ha, heq⟩ := List.mem_map.mp (hpairs ▸ List.mem_map_of_mem hp)
      have hname : a.name = p.name := congrArg Prod.fst heq
      exact (hmarked p hp).regular (hname ▸ hnames a ha)
    have hcontent := List.takeWhile_append_dropWhile (p := (!isMarkupSpace ·)) (l := content)
    refine ⟨⟨WrittenAttribute.elementName content, pieces, blanks⟩, ⟨hname, hpieces, ?_, ?_, hblanks⟩, ?_⟩
    · rw [WrittenAttribute.map_name_of_map_entry hpairs]
      exact hnodup
    · exact WrittenAttribute.lead_ne_nil_of_dropWhile hsplit hmarked
    · rw [StartTag.content, ← hsplit]
      exact hcontent
  · rw [hread] at hentries
    cases hentries

end SkinMarkup
