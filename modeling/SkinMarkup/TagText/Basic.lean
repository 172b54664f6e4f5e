import SkinMarkup.Position
import SkinMarkup.Text.Blank
import SkinMarkup.Text.Search

/-!
# The written form of a start tag

`TagText` divides the text of one tag, such as `<name a="1" b='2'/>`, into
its attributes and what stands around them, without changing a character:
`TagText.source_ofText` says that the parts put together are the text. It
never fails. A name without a value is passed over, and reading stops at the
first thing that is no attribute; what was not read is the tail.

An attribute's extent reaches from the blanks before its name to its closing
quote, so that dropping the extent drops the attribute cleanly.
-/

namespace SkinMarkup

/-- One attribute as it is written. -/
structure WrittenPiece where
  /-- Names without a value that were passed over before the attribute. -/
  skipped : Text
  /-- The blanks in front of the name. -/
  lead : Text
  name : Text
  /-- The equals sign with the blanks around it. -/
  assign : Text
  value : Text
  /-- The character on both sides of the value, if it is quoted. -/
  quote : Option Char
deriving DecidableEq

namespace WrittenPiece

/-- The value with its quotes. -/
def quoted (p : WrittenPiece) : Text :=
  p.quote.toList ++ p.value ++ p.quote.toList

/-- The attribute from the blanks before its name to its closing quote. -/
def extent (p : WrittenPiece) : Text :=
  p.lead ++ p.name ++ p.assign ++ p.quoted

def source (p : WrittenPiece) : Text :=
  p.skipped ++ p.extent

end WrittenPiece

/-- A tag's text up to the end of its name, its attributes, and the rest. -/
structure TagText where
  head : Text
  pieces : List WrittenPiece
  tail : Text
deriving DecidableEq

namespace TagText

/-- The text of a tag. -/
def source (t : TagText) : Text :=
  t.head ++ t.pieces.flatMap WrittenPiece.source ++ t.tail

/-! ## Reading one attribute -/

/-- A character that ends a name inside a tag. -/
def endsName (c : Char) : Bool :=
  isSpace c || c == '=' || c == '>' || c == '/'

/-- Reads a value without quotes: up to a blank, a `>`, or a `/` right before
a `>`. -/
def bareValue : Text → Text × Text
  | [] => ([], [])
  | c :: cs =>
    if isSpace c || c == '>' || (c == '/' && cs.head? == some '>') then
      ([], c :: cs)
    else
      let (value, rest) := bareValue cs
      (c :: value, rest)

/-- What the attribute part of a tag starts with. -/
inductive Step where
  /-- Nothing that can be read as an attribute. -/
  | stop
  /-- A name without a value, with the blanks around it. -/
  | valueless (read rest : Text)
  | piece (piece : WrittenPiece) (rest : Text)

/-- Reads the value of the attribute `name` after its equals sign. -/
def stepValue (lead name assign : Text) (t : Text) : Step :=
  match t with
  | [] => .stop
  | c :: cs =>
    if c = '"' ∨ c = '\'' then
      match cutAt c cs with
      | none => .stop
      | some (value, rest) => .piece ⟨[], lead, name, assign, value, some c⟩ rest
    else
      .piece ⟨[], lead, name, assign, (bareValue t).1, none⟩ (bareValue t).2

/-- Reads on after a name: an equals sign makes it an attribute. -/
def stepName (lead name : Text) (t : Text) : Step :=
  let pad := t.takeWhile isSpace
  match t.dropWhile isSpace with
  | [] => .valueless (lead ++ name ++ pad) []
  | c :: cs =>
    if c = '=' then
      stepValue lead name (pad ++ '=' :: cs.takeWhile isSpace) (cs.dropWhile isSpace)
    else
      .valueless (lead ++ name ++ pad) (c :: cs)

/-- Reads the next attribute or valueless name. -/
def step (t : Text) : Step :=
  let lead := t.takeWhile isSpace
  let rest := t.dropWhile isSpace
  let name := rest.takeWhile (!endsName ·)
  if name = [] ∨ rest.head? = some '?' then
    .stop
  else
    stepName lead name (rest.dropWhile (!endsName ·))

/-! ## What is read is a part of the text -/

theorem bareValue_append (t : Text) : (bareValue t).1 ++ (bareValue t).2 = t := by
  induction t with
  | nil => simp [bareValue]
  | cons c cs ih =>
    simp only [bareValue]
    split
    · simp
    · simp [ih]

theorem stepValue_piece {lead name assign t rest : Text} {p : WrittenPiece}
    (h : stepValue lead name assign t = .piece p rest) :
    p.source ++ rest = lead ++ name ++ assign ++ t ∧ p.skipped = [] ∧ p.name = name := by
  unfold stepValue at h
  split at h
  · cases h
  · split at h
    · split at h
      · cases h
      · next value after hcut =>
        cases h
        have := cutAt_eq_some hcut
        simp [WrittenPiece.source, WrittenPiece.extent, WrittenPiece.quoted, this]
    · cases h
      simp [WrittenPiece.source, WrittenPiece.extent, WrittenPiece.quoted, bareValue_append]

theorem stepValue_ne_valueless {lead name assign t read rest : Text} :
    stepValue lead name assign t ≠ .valueless read rest := by
  intro h
  unfold stepValue at h
  split at h
  · cases h
  · split at h
    · split at h
      · cases h
      · cases h
    · cases h

theorem stepName_piece {lead name t rest : Text} {p : WrittenPiece}
    (h : stepName lead name t = .piece p rest) :
    p.source ++ rest = lead ++ name ++ t ∧ p.skipped = [] ∧ p.name = name := by
  unfold stepName at h
  dsimp only at h
  have ht := List.takeWhile_append_dropWhile (p := isSpace) (l := t)
  split at h
  · cases h
  · next c cs heq =>
    split at h
    · next hc =>
      obtain ⟨hsource, hskipped, hname⟩ := stepValue_piece h
      refine ⟨?_, hskipped, hname⟩
      have hcs := List.takeWhile_append_dropWhile (p := isSpace) (l := cs)
      rw [heq, hc] at ht
      rw [hsource]
      simp only [List.append_assoc, List.cons_append, hcs, ht]
    · cases h

theorem stepName_valueless {lead name t read rest : Text}
    (h : stepName lead name t = .valueless read rest) :
    read ++ rest = lead ++ name ++ t ∧ ∃ pad, read = lead ++ name ++ pad := by
  unfold stepName at h
  dsimp only at h
  have ht := List.takeWhile_append_dropWhile (p := isSpace) (l := t)
  split at h
  · next heq =>
    cases h
    refine ⟨?_, _, rfl⟩
    rw [heq] at ht
    rw [List.append_assoc, ht]
  · next c cs heq =>
    split at h
    · exact absurd h stepValue_ne_valueless
    · cases h
      refine ⟨?_, _, rfl⟩
      rw [heq] at ht
      rw [List.append_assoc, ht]

/-- An attribute that is read is a part of the text, and so is what follows. -/
theorem step_piece {t rest : Text} {p : WrittenPiece} (h : step t = .piece p rest) :
    p.source ++ rest = t ∧ p.skipped = [] ∧ p.name ≠ [] := by
  unfold step at h
  dsimp only at h
  split at h
  · cases h
  · next hname =>
    obtain ⟨hsource, hskipped, hp⟩ := stepName_piece h
    refine ⟨?_, hskipped, ?_⟩
    · rw [hsource, List.append_assoc, List.takeWhile_append_dropWhile,
        List.takeWhile_append_dropWhile]
    · rw [hp]
      exact fun hnil => hname (Or.inl hnil)

/-- A valueless name that is read is a part of the text, and so is what
follows. -/
theorem step_valueless {t read rest : Text} (h : step t = .valueless read rest) :
    read ++ rest = t ∧ read ≠ [] := by
  unfold step at h
  dsimp only at h
  split at h
  · cases h
  · next hname =>
    obtain ⟨hsource, pad, hread⟩ := stepName_valueless h
    refine ⟨?_, ?_⟩
    · rw [hsource, List.append_assoc, List.takeWhile_append_dropWhile,
        List.takeWhile_append_dropWhile]
    · intro hnil
      rw [hread] at hnil
      simp only [List.append_eq_nil_iff] at hnil
      exact hname (Or.inl hnil.1.2)

theorem length_of_step_piece {t rest : Text} {p : WrittenPiece}
    (h : step t = .piece p rest) : rest.length < t.length := by
  obtain ⟨rfl, _, hname⟩ := step_piece h
  have := List.length_pos_iff.2 hname
  simp only [WrittenPiece.source, WrittenPiece.extent, List.length_append]
  omega

theorem length_of_step_valueless {t read rest : Text} (h : step t = .valueless read rest) :
    rest.length < t.length := by
  obtain ⟨rfl, hread⟩ := step_valueless h
  have := List.length_pos_iff.2 hread
  rw [List.length_append]
  omega

/-! ## Reading a whole tag -/

/-- Reads attributes as far as they can be read. `skipped` has been passed
over since the last one. -/
def readPieces (skipped t : Text) : List WrittenPiece × Text :=
  match h : step t with
  | .stop => ([], skipped ++ t)
  | .valueless read rest =>
    have := length_of_step_valueless h
    readPieces (skipped ++ read) rest
  | .piece piece rest =>
    have := length_of_step_piece h
    let (pieces, tail) := readPieces [] rest
    ({ piece with skipped } :: pieces, tail)
termination_by t.length

/-- Divides the text of a tag. A text that does not start with `<` has no
attributes. -/
def ofText (t : Text) : TagText :=
  match t with
  | '<' :: cs =>
    let (pieces, tail) := readPieces [] (cs.dropWhile (!endsName ·))
    ⟨'<' :: cs.takeWhile (!endsName ·), pieces, tail⟩
  | t => ⟨[], [], t⟩

theorem readPieces_source (skipped t : Text) :
    (readPieces skipped t).1.flatMap WrittenPiece.source ++ (readPieces skipped t).2 =
      skipped ++ t := by
  fun_induction readPieces skipped t with
  | case1 => simp
  | case2 skipped t read rest h _ ih => rw [ih, List.append_assoc, (step_valueless h).1]
  | case3 skipped t piece rest h _ pieces tail heq ih =>
    obtain ⟨hsource, hskipped, -⟩ := step_piece h
    simp only [heq, List.nil_append] at ih
    simp only [List.flatMap_cons, List.append_assoc, ih]
    rw [← hsource]
    simp [WrittenPiece.source, WrittenPiece.extent, WrittenPiece.quoted, hskipped]

/-- Nothing of a tag's text is lost. -/
theorem source_ofText (t : Text) : (ofText t).source = t := by
  unfold ofText
  split
  · next cs =>
    have := readPieces_source [] (cs.dropWhile (!endsName ·))
    simp only [source, List.cons_append, List.append_assoc, List.nil_append] at this ⊢
    rw [this, List.takeWhile_append_dropWhile]
  · simp [source]

/-! ## Changing the attributes of a tag -/

/-- A tag's text without the attributes that satisfy `p`. -/
def without (p : WrittenPiece → Bool) (t : TagText) : Text :=
  t.head ++ (t.pieces.flatMap fun a => if p a then a.skipped else a.source) ++ t.tail

/-- A tag's text with some attributes renamed. -/
def renamed (f : Text → Option Text) (t : TagText) : Text :=
  t.head ++ (t.pieces.flatMap fun a => { a with name := (f a.name).getD a.name }.source) ++ t.tail

end TagText

/-! ## Where attributes stand -/

/-- Where the parts of one attribute stand in a text. -/
structure PieceSpans where
  name : Span
  value : Span
  extent : Span
deriving DecidableEq

namespace WrittenPiece

/-- The spans of an attribute whose source starts at `offset`. -/
def spans (offset : Nat) (p : WrittenPiece) : PieceSpans :=
  let start := offset + width p.skipped
  let name := start + width p.lead
  let value := name + width p.name + width p.assign + width p.quote.toList
  { name := ⟨name, name + width p.name⟩
    value := ⟨value, value + width p.value⟩
    extent := ⟨start, start + width p.extent⟩ }

/-- Pairs consecutive attributes, the first of which starts at `offset`, with
their spans. -/
def withSpans (offset : Nat) : List WrittenPiece → List (WrittenPiece × PieceSpans)
  | [] => []
  | p :: ps => (p, p.spans offset) :: withSpans (offset + width p.source) ps

end WrittenPiece

namespace TagText

/-- The attributes of a tag with their spans in its text. -/
def attributes (t : TagText) : List (WrittenPiece × PieceSpans) :=
  WrittenPiece.withSpans (width t.head) t.pieces

end TagText

end SkinMarkup
