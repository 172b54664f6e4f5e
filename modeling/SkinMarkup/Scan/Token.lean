import SkinMarkup.Namespace
import SkinMarkup.Position
import SkinMarkup.Text.Blank

/-!
# Tokens

A token is one piece of markup in a text that need not be well-formed, from
its `<` to its `>`. Start tags, end tags and empty elements are element
tokens; the others are inert.
-/

namespace SkinMarkup

inductive TokenKind where
  /-- A start tag `<name …>`. -/
  | opening
  /-- An end tag `</name>`. -/
  | closing
  /-- An empty element `<name …/>`. -/
  | selfClosing
  /-- A comment `<!-- … -->`. -/
  | comment
  /-- A section `<![CDATA[ … ]]>`. -/
  | cdata
  /-- An instruction `<? … ?>`. -/
  | instruction
  /-- Any other `<! … >`. -/
  | declaration
deriving DecidableEq, Repr

namespace TokenKind

/-- Whether a token starts an element. -/
def isStart : TokenKind → Bool
  | opening => true
  | selfClosing => true
  | _ => false

/-- Whether a token is a start tag, an end tag or an empty element. -/
def isElement (kind : TokenKind) : Bool :=
  kind.isStart || kind == closing

/-- The kind of the element token with a text. -/
def ofElement (t : Text) : TokenKind :=
  if startsWith ['<', '/'] t then closing
  else if endsWith ['/', '>'] t then selfClosing
  else opening

/-- The number of open elements after a token, given their number before. An
end tag needs an open element. -/
def depthAfter (kind : TokenKind) (depth : Nat) : Option Nat :=
  match kind, depth with
  | opening, depth => some (depth + 1)
  | closing, 0 => none
  | closing, depth + 1 => some depth
  | _, depth => some depth

/-- The number of characters that end the text of a token of this kind. -/
def closerLength : TokenKind → Nat
  | selfClosing => 2
  | _ => 1

end TokenKind

/-- A piece of markup that starts at byte `start`. -/
structure Token where
  kind : TokenKind
  start : Nat
  text : Text
deriving DecidableEq

namespace Token

/-- The offset just after a token. -/
def stop (t : Token) : Nat :=
  t.start + width t.text

def span (t : Token) : Span :=
  ⟨t.start, t.stop⟩

def isElement (t : Token) : Bool :=
  t.kind.isElement

def isStart (t : Token) : Bool :=
  t.kind.isStart

theorem isElement_of_isStart {t : Token} (h : t.isStart = true) : t.isElement = true := by
  rw [isElement, TokenKind.isElement, Bool.or_eq_true]
  exact Or.inl h

theorem isStart_eq_false {t : Token} (h : t.isElement = false) : t.isStart = false := by
  rw [isElement, TokenKind.isElement, Bool.or_eq_false_iff] at h
  exact h.1

/-- The name of an element token. An inert token has an empty name. -/
def name (t : Token) : Text :=
  let rest :=
    match t.kind with
    | .opening => t.text.drop 1
    | .selfClosing => t.text.drop 1
    | .closing => t.text.drop 2
    | _ => []
  rest.takeWhile fun c => !(isSpace c || c == '/' || c == '>')

/-- The prefix of a token's name. -/
def nsPrefix? (t : Token) : Option Text :=
  prefixOf t.name

/-- The name of a token without its prefix. -/
def localName (t : Token) : Text :=
  localOf t.name

end Token

/-- The part of a tag's text after which a new attribute goes: everything
before the closing `>` or `/>` and the blanks in front of that. -/
def insertionHead (kind : TokenKind) (tag : Text) : Text :=
  trimEnd (tag.take (tag.length - kind.closerLength))

/-- A tag's text with more text after its last attribute. -/
def insertRaw (kind : TokenKind) (raw tag : Text) : Text :=
  let head := insertionHead kind tag
  head ++ raw ++ tag.drop head.length

/-- An attribute as it is inserted into a tag, with a space in front. -/
def attributeText (name value : Text) : Text :=
  ' ' :: name ++ ['=', '"'] ++ value ++ ['"']

/-- A tag's text with one more attribute. -/
def insertAttribute (kind : TokenKind) (name value tag : Text) : Text :=
  insertRaw kind (attributeText name value) tag

end SkinMarkup
