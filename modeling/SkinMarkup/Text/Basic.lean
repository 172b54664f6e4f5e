/-!
# Texts and byte offsets

Documents, names and values are lists of characters. Every offset that the
library reports counts bytes of the UTF-8 form, so a text has a `width` next
to its length, and a byte offset cuts a text only where two characters meet.

* `width_append`: widths add up.
* `splitAt?_width`: a text can be cut where one of its parts ends.
* `slice?_append`: the part between two offsets is the part that stands there.
-/

namespace SkinMarkup

/-- A document, a name or a value. -/
abbrev Text := List Char

/-- The number of bytes that a text takes in UTF-8. -/
def width : Text → Nat
  | [] => 0
  | c :: cs => c.utf8Size + width cs

@[simp]
theorem width_nil : width [] = 0 := rfl

@[simp]
theorem width_cons (c : Char) (cs : Text) : width (c :: cs) = c.utf8Size + width cs := rfl

@[simp]
theorem width_append (s t : Text) : width (s ++ t) = width s + width t := by
  induction s with
  | nil => simp
  | cons c cs ih => simp [ih, Nat.add_assoc]

/-- Cuts a text at a byte offset. There is no cut inside a character or past
the end. -/
def splitAt? : Nat → Text → Option (Text × Text)
  | 0, t => some ([], t)
  | _ + 1, [] => none
  | n + 1, c :: cs =>
    if c.utf8Size ≤ n + 1 then
      (splitAt? (n + 1 - c.utf8Size) cs).map fun (s, t) => (c :: s, t)
    else
      none

theorem splitAt?_width (s t : Text) : splitAt? (width s) (s ++ t) = some (s, t) := by
  induction s with
  | nil => simp [splitAt?]
  | cons c cs ih =>
    have hc : 0 < c.utf8Size := Char.utf8Size_pos c
    obtain ⟨n, hn⟩ : ∃ n, c.utf8Size + width cs = n + 1 := ⟨c.utf8Size + width cs - 1, by omega⟩
    have hle : c.utf8Size ≤ n + 1 := by omega
    have hrest : n + 1 - c.utf8Size = width cs := by omega
    simp only [width_cons, List.cons_append, hn, splitAt?, if_pos hle, hrest, ih, Option.map_some]

/-- The text between two byte offsets, if both fall between characters. -/
def slice? (start stop : Nat) (t : Text) : Option Text := do
  let (_, rest) ← splitAt? start t
  let (inside, _) ← splitAt? (stop - start) rest
  return inside

/-- Between the widths of what stands before and after it, a text has its
middle part. -/
theorem slice?_append (before middle after : Text) :
    slice? (width before) (width before + width middle) (before ++ middle ++ after) =
      some middle := by
  have hstart : splitAt? (width before) (before ++ (middle ++ after)) = some (before, middle ++ after) :=
    splitAt?_width before (middle ++ after)
  have hstop : splitAt? (width middle) (middle ++ after) = some (middle, after) :=
    splitAt?_width middle after
  simp [slice?, List.append_assoc, hstart, hstop]

theorem slice?_of_split {t middle : Text} {start stop : Nat} (before after : Text)
    (h : t = before ++ middle ++ after) (hstart : start = width before)
    (hstop : stop = start + width middle) : slice? start stop t = some middle := by
  rw [hstop, hstart, h]
  exact slice?_append before middle after

/-- The characters that start before byte `n`. -/
def takeWidth : Nat → Text → Text
  | _, [] => []
  | 0, _ :: _ => []
  | n + 1, c :: cs => c :: takeWidth (n + 1 - c.utf8Size) cs

/-- The characters that start at byte `n` or later. -/
def dropWidth : Nat → Text → Text
  | _, [] => []
  | 0, c :: cs => c :: cs
  | n + 1, c :: cs => dropWidth (n + 1 - c.utf8Size) cs

/-- Every character either starts before an offset or does not. -/
theorem takeWidth_append_dropWidth (n : Nat) (t : Text) : takeWidth n t ++ dropWidth n t = t := by
  induction t generalizing n with
  | nil => simp [takeWidth, dropWidth]
  | cons c cs ih =>
    cases n with
    | zero => simp [takeWidth, dropWidth]
    | succ n => simp [takeWidth, dropWidth, ih]

theorem length_dropWhile_le (p : Char → Bool) (t : Text) : (t.dropWhile p).length ≤ t.length := by
  have h := congrArg List.length (List.takeWhile_append_dropWhile (p := p) (l := t))
  rw [List.length_append] at h
  omega

end SkinMarkup
