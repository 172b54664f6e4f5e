import SkinMarkup.Proofs.TagText.StartTag

/-!
# Tidy start tags

A lexed attribute has a name that nothing in it ends and a value in quotes; there may
be blanks of any kind before it and around its equals sign. Reading a tag takes it
as it is written: `TagText.step_lexed`. The name of a proper attribute consists of name
characters. In a tidy start tag the attributes are proper and regular, and blanks stand
before every one of them. Its written form is divided into the attributes that it has:
`Tidy.ofText_text`.
-/

namespace SkinMarkup

/-- The characters that end a start tag. -/
def closer (selfClosing : Bool) : Text :=
  if selfClosing then ['/', '>'] else ['>']

/-- A text of name characters. -/
def NameChars (t : Text) : Prop :=
  ∀ c ∈ t, isNameChar c = true

instance (t : Text) : Decidable (NameChars t) :=
  List.decidableBAll (isNameChar · = true) t

theorem isNameChar_eq_false_of_isSpace {c : Char} (h : isSpace c = true) : isNameChar c = false := by
  simp only [isSpace, Bool.or_eq_true, beq_iff_eq] at h
  rcases h with (((rfl | rfl) | rfl) | rfl) | rfl <;> decide

theorem isSpace_of_isMarkupSpace {c : Char} (h : isMarkupSpace c = true) : isSpace c = true := by
  rcases isMarkupSpace_iff.mp h with rfl | rfl | rfl | rfl <;> rfl

theorem isBlank_of_isMarkupSpace {c : Char} (h : isMarkupSpace c = true) : isBlank c = true := by
  rcases isMarkupSpace_iff.mp h with rfl | rfl | rfl | rfl <;> rfl

theorem MarkupSpaces.blanks {t : Text} (h : MarkupSpaces t) : Blanks t :=
  fun c hc => isBlank_of_isMarkupSpace (h c hc)

/-- A text of blanks between the parts of a tag. -/
def Spaces (t : Text) : Prop :=
  ∀ c ∈ t, isSpace c = true

theorem isBlank_of_isSpace {c : Char} (h : isSpace c = true) : isBlank c = true := by
  simp only [isSpace, Bool.or_eq_true, beq_iff_eq] at h
  rcases h with (((rfl | rfl) | rfl) | rfl) | rfl <;> rfl

theorem Spaces.blanks {t : Text} (h : Spaces t) : Blanks t :=
  fun c hc => isBlank_of_isSpace (h c hc)

theorem MarkupSpaces.spaces {t : Text} (h : MarkupSpaces t) : Spaces t :=
  fun c hc => isSpace_of_isMarkupSpace (h c hc)

namespace TagText

theorem not_endsName_of_isNameChar {c : Char} (h : isNameChar c = true) : (!endsName c) = true := by
  have hne : ∀ e : Char, isNameChar e = false → (c == e) = false := fun e he => by
    simpa using ne_of_isNameChar h he
  have hspace : isSpace c = false := by
    cases hs : isSpace c with
    | false => rfl
    | true => cases h.symm.trans (isNameChar_eq_false_of_isSpace hs)
  simp [endsName, hspace, hne '=' (by decide), hne '>' (by decide), hne '/' (by decide)]

theorem endsName_of_isSpace {c : Char} (h : isSpace c = true) : endsName c = true := by
  rw [endsName, h]
  rfl

/-- A text that is read as one name inside a tag. -/
def Unended (name : Text) : Prop :=
  ∀ c ∈ name, endsName c = false

end TagText

theorem NameChars.unended {name : Text} (h : NameChars name) : TagText.Unended name := by
  intro c hc
  simpa using TagText.not_endsName_of_isNameChar (h c hc)

/-- A name without the characters that end a name only for the division of a tag, and
without the question mark, which ends the division where a name starts with it. -/
def Undisputed (name : Text) : Prop :=
  ∀ c ∈ name, c ≠ '=' ∧ c ≠ '>' ∧ c ≠ '/' ∧ c ≠ '?' ∧ c ≠ '\x0c'

instance (name : Text) : Decidable (Undisputed name) :=
  List.decidableBAll (fun c => c ≠ '=' ∧ c ≠ '>' ∧ c ≠ '/' ∧ c ≠ '?' ∧ c ≠ '\x0c') name

theorem Undisputed.unended {name : Text} (h : Undisputed name)
    (hspaces : ∀ c ∈ name, isMarkupSpace c = false) : TagText.Unended name := by
  intro c hc
  obtain ⟨hequals, hclose, hslash, -, hfeed⟩ := h c hc
  have hspace : isSpace c = isMarkupSpace c := by
    simp [isSpace, isMarkupSpace, hfeed]
  simp [TagText.endsName, hspace, hspaces c hc, hequals, hclose, hslash]

namespace WrittenPiece

/-- An attribute that the division of a tag finds: its name is not ended early, and its
value stands in quotes. -/
structure Lexed (p : WrittenPiece) : Prop where
  skipped : p.skipped = []
  lead : Spaces p.lead
  named : p.name ≠ []
  name : TagText.Unended p.name
  question : p.name.head? ≠ some '?'
  assign : ∃ m n, p.assign = m ++ '=' :: n ∧ Spaces m ∧ Spaces n
  quoted : ∃ q, p.quote = some q ∧ (q = '"' ∨ q = '\'') ∧ q ∉ p.value

/-- An attribute with a proper name and a value in quotes. -/
structure Proper (p : WrittenPiece) : Prop where
  skipped : p.skipped = []
  lead : Spaces p.lead
  named : p.name ≠ []
  name : NameChars p.name
  assign : ∃ m n, p.assign = m ++ '=' :: n ∧ Spaces m ∧ Spaces n
  quoted : ∃ q, p.quote = some q ∧ (q = '"' ∨ q = '\'') ∧ q ∉ p.value

variable {p : WrittenPiece}

theorem Regular.proper (h : p.Regular) (hname : NameChars p.name) : p.Proper := by
  obtain ⟨m, n, hassign, hm, hn⟩ := h.assign
  exact ⟨h.skipped, h.lead.spaces, (isSafeName_iff.mp h.name).1, hname,
    ⟨m, n, hassign, hm.spaces, hn.spaces⟩, h.quoted⟩

theorem Proper.lexed (h : p.Proper) : p.Lexed := by
  refine ⟨h.skipped, h.lead, h.named, h.name.unended, ?_, h.assign, h.quoted⟩
  intro hquestion
  have hchar := h.name '?' (List.mem_of_mem_head? hquestion)
  revert hchar
  decide

/-- An attribute that is read is one that the division of the tag finds. -/
theorem Marked.lexed (h : p.Marked) (hname : Undisputed p.name) : p.Lexed := by
  obtain ⟨m, n, hassign, hm, hn⟩ := h.assign
  refine ⟨h.skipped, h.lead.spaces, h.named, hname.unended h.name, ?_,
    ⟨m, n, hassign, hm.spaces, hn.spaces⟩, h.quoted⟩
  intro hquestion
  exact (hname '?' (List.mem_of_mem_head? hquestion)).2.2.2.1 rfl

theorem Lexed.exists_source (h : p.Lexed) :
    ∃ m n q, p.source = p.lead ++ (p.name ++ (m ++ '=' :: (n ++ (q :: p.value ++ [q])))) ∧
      Spaces m ∧ Spaces n ∧ p.assign = m ++ '=' :: n ∧ p.quote = some q ∧
      (q = '"' ∨ q = '\'') ∧ q ∉ p.value := by
  obtain ⟨m, n, hassign, hm, hn⟩ := h.assign
  obtain ⟨q, hquote, hq, hvalue⟩ := h.quoted
  refine ⟨m, n, q, ?_, hm, hn, hassign, hquote, hq, hvalue⟩
  simp [source, extent, WrittenPiece.quoted, h.skipped, hassign, hquote]

theorem Proper.exists_source (h : p.Proper) :
    ∃ m n q, p.source = p.lead ++ (p.name ++ (m ++ '=' :: (n ++ (q :: p.value ++ [q])))) ∧
      Spaces m ∧ Spaces n ∧ p.assign = m ++ '=' :: n ∧ p.quote = some q ∧
      (q = '"' ∨ q = '\'') ∧ q ∉ p.value :=
  h.lexed.exists_source

end WrittenPiece

namespace StartTag

/-- The written form of a start tag. -/
def text (selfClosing : Bool) (t : StartTag) : Text :=
  '<' :: (t.content ++ closer selfClosing)

theorem source_start (selfClosing : Bool) (t : StartTag) :
    (Event.start selfClosing t.content).source = t.text selfClosing := by
  cases selfClosing <;> rfl

/-- A regular start tag with proper names and with blanks before its
attributes. -/
structure Tidy (t : StartTag) : Prop where
  regular : t.Regular
  name : NameChars t.name
  names : ∀ p ∈ t.pieces, NameChars p.name
  spaced : ∀ p ∈ t.pieces, p.lead ≠ []

/-- A start tag with proper attributes of different names and with blanks of any kind
before each of them. -/
structure Spaced (t : StartTag) : Prop where
  name : TagText.Unended t.name
  pieces : ∀ p ∈ t.pieces, p.Proper
  spaced : ∀ p ∈ t.pieces, p.lead ≠ []
  nodup : (t.pieces.map (·.name)).Nodup
  blanks : Spaces t.blanks

variable {t : StartTag} {p : WrittenPiece}

theorem Tidy.proper (h : t.Tidy) (hp : p ∈ t.pieces) : p.Proper :=
  (h.regular.pieces p hp).proper (h.names p hp)

theorem Tidy.toSpaced (h : t.Tidy) : t.Spaced :=
  ⟨h.name.unended, fun _ hp => h.proper hp, h.spaced, h.regular.nodup, h.regular.blanks.spaces⟩

end StartTag

/-! ## Dividing a tidy tag -/

namespace TagText

theorem readPieces_of_stop {skipped t : Text} (h : step t = .stop) :
    readPieces skipped t = ([], skipped ++ t) := by
  rw [readPieces.eq_def]
  split
  · rfl
  · next heq => cases h.symm.trans heq
  · next heq => cases h.symm.trans heq

theorem readPieces_of_piece {skipped t rest : Text} {p : WrittenPiece} (h : step t = .piece p rest) :
    readPieces skipped t =
      ({ p with skipped } :: (readPieces [] rest).1, (readPieces [] rest).2) := by
  rw [readPieces.eq_def]
  split
  · next heq => cases h.symm.trans heq
  · next heq => cases h.symm.trans heq
  · next heq =>
    cases h.symm.trans heq
    rfl

theorem readPieces_of_valueless {skipped t read rest : Text} (h : step t = .valueless read rest) :
    readPieces skipped t = readPieces (skipped ++ read) rest := by
  rw [readPieces.eq_def]
  split
  · next heq => cases h.symm.trans heq
  · next heq =>
    cases h.symm.trans heq
    rfl
  · next heq => cases h.symm.trans heq

/-- Nothing is read where there is neither a blank nor a name. -/
theorem step_eq_stop {t : Text} (h : ∀ c ∈ t.head?, isSpace c = false ∧ endsName c = true) :
    step t = .stop := by
  cases t with
  | nil => rfl
  | cons c cs =>
    obtain ⟨hspace, hends⟩ := h c rfl
    have hkeep : (c :: cs).dropWhile isSpace = c :: cs :=
      List.dropWhile_cons_of_neg (by simp [hspace])
    have hname : (c :: cs).takeWhile (!endsName ·) = [] :=
      List.takeWhile_cons_of_neg (by simp [hends])
    rw [step]
    simp only [hkeep, hname, true_or, if_true]

/-- Only a tag has attributes. -/
theorem ofText_of_head? {t : Text} (h : t.head? ≠ some '<') : ofText t = ⟨[], [], t⟩ := by
  unfold ofText
  split
  · exact absurd rfl h
  · rfl

/-- A lexed attribute is read as it is written. -/
theorem step_lexed {p : WrittenPiece} (h : p.Lexed) (rest : Text) :
    step (p.source ++ rest) = .piece p rest := by
  obtain ⟨l, r, q, hsource, hl, hr, hassign, hquote, hq, hvalue⟩ := h.exists_source
  obtain ⟨c, cs, hcons⟩ := List.exists_cons_of_ne_nil h.named
  have hfirst : isSpace c = false := by
    cases hc : isSpace c with
    | false => rfl
    | true => cases (endsName_of_isSpace hc).symm.trans (h.name c (hcons ▸ List.mem_cons_self))
  let more := q :: (p.value ++ q :: rest)
  let equals := '=' :: (r ++ more)
  have hsplit : p.source ++ rest = p.lead ++ (p.name ++ (l ++ equals)) := by
    rw [hsource]
    simp [equals, more]
  have hnameHead : ∀ d ∈ (p.name ++ (l ++ equals)).head?, isSpace d = false := by
    rw [hcons]
    rintro d ⟨⟩
    exact hfirst
  have hafter : ∀ d ∈ (l ++ equals).head?, (!endsName d) = false := by
    intro d hd
    cases l with
    | nil =>
      cases hd
      rfl
    | cons e es =>
      cases hd
      rw [endsName_of_isSpace (hl d List.mem_cons_self)]
      rfl
  have hequals : ∀ d ∈ equals.head?, isSpace d = false := by
    rintro d ⟨⟩
    rfl
  have hmore : ∀ d ∈ more.head?, isSpace d = false := by
    rintro d ⟨⟩
    rcases hq with rfl | rfl <;> rfl
  have hin : ∀ d ∈ p.name, (!endsName d) = true := by
    intro d hd
    rw [h.name d hd]
    rfl
  have hquestion : ¬(p.name = [] ∨ (p.name ++ (l ++ equals)).head? = some '?') := by
    rintro (hnil | hhead)
    · exact h.named hnil
    · rw [List.head?_append_of_ne_nil _ h.named] at hhead
      exact h.question hhead
  rw [step, hsplit, takeWhile_append_eq_left h.lead hnameHead,
    dropWhile_append_eq_right h.lead hnameHead, takeWhile_append_eq_left hin hafter,
    dropWhile_append_eq_right hin hafter, if_neg hquestion, stepName,
    takeWhile_append_eq_left hl hequals, dropWhile_append_eq_right hl hequals]
  dsimp only [equals]
  rw [if_pos rfl, takeWhile_append_eq_left hr hmore, dropWhile_append_eq_right hr hmore, stepValue,
    if_pos hq, cutAt_append hvalue]
  dsimp only
  rw [← hassign, ← hquote, ← h.skipped]

theorem endsName_head?_closer (selfClosing : Bool) : ∀ c ∈ (closer selfClosing).head?,
    endsName c = true ∧ isSpace c = false := by
  cases selfClosing <;> rintro c ⟨⟩ <;> exact ⟨rfl, rfl⟩

/-- Blanks before the end of a tag are no attribute. -/
theorem step_blanks {blanks : Text} (h : Spaces blanks) (selfClosing : Bool) :
    step (blanks ++ closer selfClosing) = .stop := by
  have hend : ∀ d ∈ (closer selfClosing).head?, isSpace d = false :=
    fun d hd => (endsName_head?_closer selfClosing d hd).2
  rw [step, dropWhile_append_eq_right h hend]
  have hname : (closer selfClosing).takeWhile (!endsName ·) = [] := by
    cases selfClosing <;> rfl
  rw [hname]
  exact if_pos (Or.inl rfl)

/-- Lexed attributes are read as they are written, whatever stands behind them. -/
theorem readPieces_append {pieces : List WrittenPiece} (hpieces : ∀ p ∈ pieces, p.Lexed)
    (rest : Text) : readPieces [] (pieces.flatMap WrittenPiece.source ++ rest) =
      (pieces ++ (readPieces [] rest).1, (readPieces [] rest).2) := by
  induction pieces with
  | nil => rfl
  | cons p pieces ih =>
    obtain ⟨hp, hpieces⟩ := List.forall_mem_cons.mp hpieces
    rw [List.flatMap_cons, List.append_assoc, readPieces_of_piece (step_lexed hp _), ih hpieces]
    have hskipped : { p with skipped := [] } = p := by rw [← hp.skipped]
    rw [hskipped, List.cons_append]

theorem readPieces_lexed {pieces : List WrittenPiece} (hpieces : ∀ p ∈ pieces, p.Lexed)
    {blanks : Text} (hblanks : Spaces blanks) (selfClosing : Bool) :
    readPieces [] (pieces.flatMap WrittenPiece.source ++ (blanks ++ closer selfClosing)) =
      (pieces, blanks ++ closer selfClosing) := by
  rw [readPieces_append hpieces, readPieces_of_stop (step_blanks hblanks selfClosing)]
  simp

end TagText

namespace StartTag

variable {t : StartTag} {selfClosing : Bool}

/-- **The written form of a start tag with lexed attributes is divided into
them.** -/
theorem ofText_text_of_lexed (hname : TagText.Unended t.name) (hpieces : ∀ p ∈ t.pieces, p.Lexed)
    (hfirst : ∀ p ∈ t.pieces.head?, p.lead ≠ []) (hblanks : Spaces t.blanks) (selfClosing : Bool) :
    TagText.ofText (t.text selfClosing) =
      ⟨'<' :: t.name, t.pieces, t.blanks ++ closer selfClosing⟩ := by
  have hin : ∀ c ∈ t.name, (!TagText.endsName c) = true := by
    intro c hc
    rw [hname c hc]
    rfl
  have hafter : ∀ c ∈ (t.pieces.flatMap WrittenPiece.source ++
      (t.blanks ++ closer selfClosing)).head?, (!TagText.endsName c) = false := by
    intro c hc
    rw [Bool.not_eq_false']
    cases hp : t.pieces with
    | nil =>
      rw [hp, List.flatMap_nil, List.nil_append] at hc
      cases hb : t.blanks with
      | nil =>
        rw [hb] at hc
        exact (TagText.endsName_head?_closer selfClosing c hc).1
      | cons d ds =>
        rw [hb] at hc
        cases hc
        exact TagText.endsName_of_isSpace (hblanks c (hb ▸ List.mem_cons_self))
    | cons p ps =>
      have hlexed := hpieces p (hp ▸ List.mem_cons_self)
      obtain ⟨d, ds, hlead⟩ := List.exists_cons_of_ne_nil (hfirst p (by rw [hp]; rfl))
      rw [hp, List.flatMap_cons, WrittenPiece.source, hlexed.skipped, WrittenPiece.extent,
        hlead] at hc
      cases hc
      exact TagText.endsName_of_isSpace (hlexed.lead c (hlead ▸ List.mem_cons_self))
  have hsplit : t.content ++ closer selfClosing =
      t.name ++ (t.pieces.flatMap WrittenPiece.source ++ (t.blanks ++ closer selfClosing)) := by
    simp [content]
  rw [text, TagText.ofText, hsplit, takeWhile_append_eq_left hin hafter,
    dropWhile_append_eq_right hin hafter, TagText.readPieces_lexed hpieces hblanks]

/-- **The written form of a start tag with proper names is divided into its
attributes.** -/
theorem Regular.ofText_text (h : t.Regular) (hname : NameChars t.name)
    (hnames : ∀ p ∈ t.pieces, NameChars p.name) (selfClosing : Bool) :
    TagText.ofText (t.text selfClosing) =
      ⟨'<' :: t.name, t.pieces, t.blanks ++ closer selfClosing⟩ :=
  ofText_text_of_lexed hname.unended (fun p hp => ((h.pieces p hp).proper (hnames p hp)).lexed)
    h.first h.blanks.spaces selfClosing

theorem Tidy.ofText_text (h : t.Tidy) (selfClosing : Bool) :
    TagText.ofText (t.text selfClosing) =
      ⟨'<' :: t.name, t.pieces, t.blanks ++ closer selfClosing⟩ :=
  h.regular.ofText_text h.name h.names selfClosing

/-- The parts of a start tag with the given content. -/
def ofContent (content : Text) : StartTag :=
  let parts := TagText.ofText ('<' :: (content ++ closer false))
  ⟨parts.head.drop 1, parts.pieces, parts.tail.dropLast⟩

theorem Tidy.ofContent_content (h : t.Tidy) : ofContent t.content = t := by
  have hparts := h.ofText_text false
  rw [text] at hparts
  rw [ofContent, hparts]
  simp [closer]

end StartTag

end SkinMarkup
