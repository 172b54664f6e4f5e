import SkinMarkup.Path.Range
import SkinMarkup.Scan.Token
import SkinMarkup.Tag.Basic

/-!
# The markup of a tree

The marks of a tag are the places of its own start and end tag and of those
below it, in the order in which they stand in the text. `Tag.tokens` reads the
token at each mark off the text.
-/

namespace SkinMarkup

namespace Token

/-- What a token is and where it stands. -/
def mark (t : Token) : TokenKind × Span :=
  (t.kind, t.span)

/-- The token at a mark in a text. -/
def ofMark (t : Text) (m : TokenKind × Span) : Token :=
  ⟨m.1, m.2.start, (slice? m.2.start m.2.stop t).getD []⟩

@[simp]
theorem ofMark_kind (t : Text) (m : TokenKind × Span) : (ofMark t m).kind = m.1 := rfl

/-- A token that stands in a text at its own offset is the one at its mark. -/
theorem ofMark_mark {t : Text} {token : Token}
    (h : slice? token.start token.stop t = some token.text) : ofMark t token.mark = token := by
  simp only [ofMark, mark, span, h, Option.getD_some]

end Token

namespace Tag

/-- The mark of a start tag or empty element. -/
def startMark (t : Tag) : TokenKind × Span :=
  if t.head.selfClosing then (.selfClosing, ⟨t.head.start, t.head.stop⟩)
  else (.opening, ⟨t.head.start, t.head.startTagEnd⟩)

/-- The mark of an end tag. -/
def endMark (t : Tag) : TokenKind × Span :=
  (.closing, ⟨t.head.endTagStart, t.head.stop⟩)

mutual

/-- The marks of a tag in document order. An empty element has one; any other
tag has its start tag, the marks of its children, and its end tag. -/
def marks : Tag → List (TokenKind × Span)
  | ⟨head, leaf, tags⟩ =>
    startMark ⟨head, leaf, tags⟩ ::
      if head.selfClosing then [] else marksAll tags ++ [endMark ⟨head, leaf, tags⟩]

/-- The marks of tags that follow one another. -/
def marksAll : List Tag → List (TokenKind × Span)
  | [] => []
  | t :: ts => marks t ++ marksAll ts

end

theorem marks_eq (t : Tag) :
    t.marks = t.startMark :: if t.head.selfClosing then [] else marksAll t.tags ++ [t.endMark] := by
  cases t
  rw [marks]

theorem marks_of_selfClosing {t : Tag} (h : t.head.selfClosing = true) :
    t.marks = [(.selfClosing, ⟨t.head.start, t.head.stop⟩)] := by
  rw [marks_eq, startMark, if_pos h, if_pos h]

theorem marks_of_not_selfClosing {t : Tag} (h : t.head.selfClosing = false) :
    t.marks = (.opening, ⟨t.head.start, t.head.startTagEnd⟩) :: marksAll t.tags ++ [t.endMark] := by
  rw [marks_eq, startMark, h]
  rfl

@[simp]
theorem marksAll_nil : marksAll [] = [] := by
  rw [marksAll]

@[simp]
theorem marksAll_cons (t : Tag) (ts : List Tag) : marksAll (t :: ts) = t.marks ++ marksAll ts := by
  rw [marksAll]

@[simp]
theorem marksAll_append (ts us : List Tag) : marksAll (ts ++ us) = marksAll ts ++ marksAll us := by
  induction ts with
  | nil => rw [marksAll_nil, List.nil_append, List.nil_append]
  | cons t ts ih => rw [List.cons_append, marksAll_cons, ih, marksAll_cons, List.append_assoc]

/-! ## Tokens and ranges -/

/-- The start tag of a tag as a token of the text. -/
def startToken (t : Text) (tag : Tag) : Token :=
  Token.ofMark t tag.startMark

/-- The end tag of a tag as a token of the text. -/
def endToken (t : Text) (tag : Tag) : Token :=
  Token.ofMark t tag.endMark

/-- The tokens of tags that follow one another. -/
def tokens (t : Text) (ts : List Tag) : List Token :=
  (marksAll ts).map (Token.ofMark t)

/-- Where the start tag and the end tag of a tag stand. -/
def range (tag : Tag) : ElementRange :=
  ⟨some ⟨tag.head.start, tag.head.startTagEnd⟩, some ⟨tag.head.endTagStart, tag.head.stop⟩⟩

/-- The range of a tag as its tokens give it. The end tag of an empty element
is the empty span after it. -/
def tokenRange (t : Text) (tag : Tag) : ElementRange :=
  if tag.head.selfClosing then
    ⟨some (tag.startToken t).span, some ⟨(tag.startToken t).stop, (tag.startToken t).stop⟩⟩
  else ⟨some (tag.startToken t).span, some (tag.endToken t).span⟩

section

variable {t : Text} {tag : Tag} {ts us : List Tag}

@[simp]
theorem endToken_kind : (tag.endToken t).kind = .closing := rfl

theorem startToken_kind_of_selfClosing (h : tag.head.selfClosing = true) :
    (tag.startToken t).kind = .selfClosing := by
  rw [startToken, Token.ofMark_kind, startMark, if_pos h]

theorem startToken_kind_of_not_selfClosing (h : tag.head.selfClosing = false) :
    (tag.startToken t).kind = .opening := by
  rw [startToken, Token.ofMark_kind, startMark, h]
  rfl

theorem startToken_start : (tag.startToken t).start = tag.head.start := by
  rw [startToken, Token.ofMark, startMark]
  split <;> rfl

@[simp]
theorem tokens_nil : tokens t [] = [] := by
  rw [tokens, marksAll_nil, List.map_nil]

@[simp]
theorem tokens_append : tokens t (ts ++ us) = tokens t ts ++ tokens t us := by
  rw [tokens, marksAll_append, List.map_append]
  rfl

theorem tokens_cons_of_selfClosing (h : tag.head.selfClosing = true) :
    tokens t (tag :: ts) = tag.startToken t :: tokens t ts := by
  rw [tokens, marksAll_cons, marks_eq, if_pos h]
  rfl

theorem tokens_cons_of_not_selfClosing (h : tag.head.selfClosing = false) :
    tokens t (tag :: ts) =
      tag.startToken t :: (tokens t tag.tags ++ tag.endToken t :: tokens t ts) := by
  rw [tokens, marksAll_cons, marks_eq, h]
  simp [tokens, startToken, endToken]

end

/-- Induction over forests: an empty element adds one token to what follows it,
any other tag adds the tokens around its children. -/
theorem forest_induction {motive : List Tag → Prop} (nil : motive [])
    (empty : ∀ (tag : Tag) (ts : List Tag), tag.head.selfClosing = true → motive ts →
      motive (tag :: ts))
    (node : ∀ (tag : Tag) (ts : List Tag), tag.head.selfClosing = false → motive tag.tags →
      motive ts → motive (tag :: ts)) : ∀ ts : List Tag, motive ts
  | [] => nil
  | ⟨head, leaf, tags⟩ :: ts => by
    have hts := forest_induction nil empty node ts
    cases hself : head.selfClosing with
    | true => exact empty _ _ hself hts
    | false => exact node _ _ hself (forest_induction nil empty node tags) hts

end Tag

end SkinMarkup
