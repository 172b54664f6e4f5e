import SkinMarkup.Text.Basic

/-!
# Blank characters

Three classes of blank matter. Trimming follows the Unicode property
White_Space. Tags are laid out with the five ASCII blanks of `isSpace`, and
the markup grammar itself knows only the four of `isMarkupSpace`.
-/

namespace SkinMarkup

/-- The code points with the Unicode property White_Space, as closed ranges
in increasing order. -/
def blankRanges : List (Nat × Nat) :=
  [(0x09, 0x0D), (0x20, 0x20), (0x85, 0x85), (0xA0, 0xA0), (0x1680, 0x1680), (0x2000, 0x200A),
    (0x2028, 0x2029), (0x202F, 0x202F), (0x205F, 0x205F), (0x3000, 0x3000)]

/-- A character with the Unicode property White_Space. -/
def isBlank (c : Char) : Bool :=
  blankRanges.any fun (low, high) => decide (low ≤ c.toNat) && decide (c.toNat ≤ high)

/-- A blank between the parts of a tag: space, tab, line feed, carriage
return or form feed. -/
def isSpace (c : Char) : Bool :=
  c == ' ' || c == '\t' || c == '\n' || c == '\r' || c == '\x0c'

/-- A blank of `isSpace` other than the space itself. -/
def isLayout (c : Char) : Bool :=
  c == '\t' || c == '\n' || c == '\r' || c == '\x0c'

/-- White space of the markup grammar: space, tab, line feed or carriage
return. -/
def isMarkupSpace (c : Char) : Bool :=
  c == ' ' || c == '\t' || c == '\n' || c == '\r'

/-- Drops the longest run at the end of a text that consists of characters
satisfying `p`. -/
def dropEndWhile (p : Char → Bool) (t : Text) : Text :=
  (t.reverse.dropWhile p).reverse

/-- The longest run at the end of a text that consists of characters
satisfying `p`. -/
def takeEndWhile (p : Char → Bool) (t : Text) : Text :=
  (t.reverse.takeWhile p).reverse

theorem dropEndWhile_append_takeEndWhile (p : Char → Bool) (t : Text) :
    dropEndWhile p t ++ takeEndWhile p t = t := by
  rw [dropEndWhile, takeEndWhile, ← List.reverse_append, List.takeWhile_append_dropWhile,
    List.reverse_reverse]

/-- A text without the blanks at its start. -/
def trimStart (t : Text) : Text :=
  t.dropWhile isBlank

/-- A text without the blanks at its end. -/
def trimEnd (t : Text) : Text :=
  dropEndWhile isBlank t

/-- A text without the blanks at either end. -/
def trim (t : Text) : Text :=
  trimEnd (trimStart t)

end SkinMarkup
