import SkinMarkup.Issue
import SkinMarkup.Tag.Basic

/-!
# Documents

A document is a tree together with what was wrong with its text. Reading can
be strict, so that the first issue is the answer, or lenient, so that issues
are listed beside the tree.
-/

namespace SkinMarkup

/-- A tree and the issues found while it was read. Issues belong to the document, which
is to say to its root: no tag inside the tree has any. -/
structure Document where
  root : Tag
  issues : List Issue

/-- How a document is to be read. -/
structure ParseOptions where
  /-- Answer with the first issue instead of listing issues. -/
  strict : Bool
  /-- Record the places of issues. -/
  places : Bool
  /-- Use a store of documents that were read before. -/
  cached : Bool
deriving DecidableEq

namespace ParseOptions

/-- Strict, with places. -/
def standard : ParseOptions :=
  ⟨true, true, true⟩

/-- Strict, without places. -/
def brief : ParseOptions :=
  ⟨true, false, false⟩

end ParseOptions

/-- Why a text has no document. -/
inductive ParseFailure where
  /-- A byte order mark shifts offsets by its width, and a shifted offset fell
  inside a character. -/
  | misaligned
  | issue (issue : Issue)
deriving DecidableEq

/-- The text that a document is read from. -/
structure Source where
  text : Text
  lines : LineIndex
  /-- Whether the text starts with a byte order mark. -/
  marked : Bool

namespace Source

/-- The byte order mark. -/
def mark : Char :=
  '\uFEFF'

def ofText (t : Text) : Source :=
  ⟨t, LineIndex.ofText t, t.head? == some mark⟩

/-- The text that is cut into events: all of it but the byte order mark.
Offsets count from its start. -/
def body (s : Source) : Text :=
  if s.marked then s.text.drop 1 else s.text

/-- The text that a source shows where an event stands. Offsets do not count
the byte order mark, but the source does, so behind one an event shows
another text than its own, or none at all. -/
def shown (s : Source) (offset : Nat) (raw : Text) : Except ParseFailure Text :=
  match slice? offset (offset + width raw) s.text with
  | some t => .ok t
  | none => .error .misaligned

/-- A text that stands in the source at its own offset is what the source
shows there. -/
theorem shown_of_eq {s : Source} {before raw after : Text} (h : s.text = before ++ raw ++ after) :
    s.shown (width before) raw = .ok raw := by
  rw [shown, h, slice?_append]

def place (s : Source) (offset : Nat) : Option Place :=
  some (s.lines.locate offset)

/-- The failure of reading at an offset. -/
def malformed (s : Source) (offset : Nat) (cause : Malformation) : ParseFailure :=
  .issue (.malformed cause (s.place offset))

end Source

end SkinMarkup
