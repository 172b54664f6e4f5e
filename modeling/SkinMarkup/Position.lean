import SkinMarkup.Text.Basic

/-!
# Spans, places and lines

A span is a half-open range of bytes. A place adds to a byte offset the line
and the column that a reader would name, both counted from one; columns count
bytes, and only a line feed ends a line.
-/

namespace SkinMarkup

/-- The bytes from `start` up to and without `stop`. -/
structure Span where
  start : Nat
  stop : Nat
deriving DecidableEq, Repr

namespace Span

/-- The number of bytes in a span. A span that stops before it starts is
empty. -/
def length (s : Span) : Nat :=
  s.stop - s.start

def isEmpty (s : Span) : Bool :=
  s.length == 0

def contains (s : Span) (offset : Nat) : Bool :=
  decide (s.start ≤ offset) && decide (offset < s.stop)

theorem contains_iff {s : Span} {offset : Nat} :
    s.contains offset = true ↔ s.start ≤ offset ∧ offset < s.stop := by
  rw [Span.contains, Bool.and_eq_true, decide_eq_true_eq, decide_eq_true_eq]

end Span

/-- A byte offset with its line and column. -/
structure Place where
  offset : Nat
  line : Nat
  column : Nat
deriving DecidableEq, Repr

/-- The offsets just after the line feeds of a text that itself starts at
`offset`. -/
def lineStartsFrom (offset : Nat) : Text → List Nat
  | [] => []
  | c :: cs =>
    let rest := lineStartsFrom (offset + c.utf8Size) cs
    if c = '\n' then (offset + 1) :: rest else rest

/-- The offsets at which the lines of a text start, in increasing order. The
first line starts at zero. -/
structure LineIndex where
  starts : List Nat

namespace LineIndex

def ofText (t : Text) : LineIndex :=
  ⟨0 :: lineStartsFrom 0 t⟩

/-- The place of a byte offset: its line is the last one that starts at or
before it. Offsets past the end of the text belong to the last line. For an
offset below `maxWord` this is what `locate?` answers. -/
def locate (index : LineIndex) (offset : Nat) : Place :=
  let begun := index.starts.takeWhile (· ≤ offset)
  { offset, line := begun.length, column := offset - begun.getLastD 0 + 1 }

/-- The largest machine word. Words have 64 bits. -/
def maxWord : Nat :=
  UInt64.size - 1

/-- The place of a byte offset, step by step in machine words. There is none if the
index has no line to start from, or if the column is no word. -/
def locate? (index : LineIndex) (offset : Nat) : Option Place :=
  match (index.starts.takeWhile (· ≤ offset)).length with
  | 0 => none
  | before + 1 =>
    match index.starts[before]? with
    | none => none
    | some start =>
      if start ≤ offset ∧ offset - start < maxWord then
        some { offset, line := before + 1, column := offset - start + 1 }
      else
        none

end LineIndex

end SkinMarkup
