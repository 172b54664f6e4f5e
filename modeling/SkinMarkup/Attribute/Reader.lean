import SkinMarkup.Text.Blank
import SkinMarkup.Text.Search

/-!
# Reading the attributes of a tag

The grammar of attributes: a name, an equals sign with optional white space
around it, and a value in quotes. The reader goes through the content of a
tag after its name and stops at the first thing that breaks the grammar.
Names and values are returned as they are written.

Whatever is left to read determines its own position: it is the length of the
content less the width of what is left.
-/

namespace SkinMarkup

/-- An attribute as it is written, with the byte at which its name starts. -/
structure WrittenAttribute where
  name : Text
  value : Text
  offset : Nat
deriving DecidableEq

/-- What breaks the grammar of attributes, and at which byte after the `<`. -/
inductive AttributeFault where
  | missingEquals (offset : Nat)
  | duplicated (offset previous : Nat)
  | missingValue (offset : Nat)
  | unquotedValue (offset : Nat)
  | unclosedQuote (offset : Nat) (quote : Char)
deriving DecidableEq

namespace AttributeFault

def message : AttributeFault → String
  | missingEquals offset =>
    "position " ++ toString offset ++ ": attribute key must be directly followed by `=` or space"
  | duplicated offset previous =>
    "position " ++ toString offset ++ ": duplicated attribute, previous declaration at position " ++
      toString previous
  | missingValue offset =>
    "position " ++ toString offset ++ ": `=` must be followed by an attribute value"
  | unquotedValue offset =>
    "position " ++ toString offset ++ ": attribute value must be enclosed in `\"` or `'`"
  | unclosedQuote offset quote =>
    "position " ++ toString offset ++ ": missing closing quote `" ++ quote.toString ++
      "` in attribute value"

end AttributeFault

namespace WrittenAttribute

/-- A character that ends a name: an equals sign or white space. -/
def endsName (c : Char) : Bool :=
  c == '=' || isMarkupSpace c

/-- Reads the value after an equals sign, up to the quote that closes it.
`total` is the length of the whole content. -/
def readValue (total : Nat) (t : Text) : Except AttributeFault (Text × Text) :=
  match t.dropWhile isMarkupSpace with
  | [] => .error (.missingValue total)
  | quote :: rest =>
    if quote = '"' ∨ quote = '\'' then
      match cutAt quote rest with
      | some parts => .ok parts
      | none => .error (.unclosedQuote total quote)
    else
      .error (.unquotedValue (total - width (quote :: rest)))

/-- Reads one attribute from a text that starts with the name's first
character `c`, which may be any character. A name that was read before is
refused before its value is looked at. -/
def readOne (total : Nat) (seen : List WrittenAttribute) (c : Char) (cs : Text) :
    Except AttributeFault (WrittenAttribute × Text) :=
  let name := c :: cs.takeWhile (!endsName ·)
  let offset := total - width (c :: cs)
  match (cs.dropWhile (!endsName ·)).dropWhile isMarkupSpace with
  | [] => .error (.missingEquals total)
  | d :: rest =>
    if d = '=' then
      match seen.find? fun a => a.name = name with
      | some earlier => .error (.duplicated offset earlier.offset)
      | none => do
        let (value, rest) ← readValue total rest
        return (⟨name, value, offset⟩, rest)
    else
      .error (.missingEquals (total - width (d :: rest)))

theorem readValue_length {total : Nat} {t value rest : Text}
    (h : readValue total t = .ok (value, rest)) : rest.length < t.length := by
  unfold readValue at h
  have hle := length_dropWhile_le isMarkupSpace t
  split at h
  · cases h
  · next quote more heq =>
    split at h
    · split at h
      · next parts hcut =>
        cases h
        have hmore := congrArg List.length (cutAt_eq_some hcut)
        simp only [heq, List.length_cons, List.length_append] at hle hmore
        omega
      · cases h
    · cases h

theorem readOne_length {total : Nat} {seen : List WrittenAttribute} {c : Char} {cs rest : Text}
    {a : WrittenAttribute} (h : readOne total seen c cs = .ok (a, rest)) :
    rest.length < cs.length := by
  unfold readOne at h
  dsimp only at h
  have hle₁ := length_dropWhile_le (!endsName ·) cs
  have hle₂ := length_dropWhile_le isMarkupSpace (cs.dropWhile (!endsName ·))
  split at h
  · cases h
  · next d more heq =>
    rw [heq, List.length_cons] at hle₂
    split at h
    · split at h
      · cases h
      · cases hv : readValue total more with
        | error fault => simp [hv, bind, Except.bind] at h
        | ok parts =>
          obtain ⟨value, rest'⟩ := parts
          simp only [hv, bind, Except.bind, pure, Except.pure, Except.ok.injEq,
            Prod.mk.injEq] at h
          have := readValue_length hv
          rw [h.2] at this
          omega
    · cases h

/-- Reads attributes up to the end of the content or to the first fault. -/
def readFrom (total : Nat) (seen : List WrittenAttribute) (t : Text) :
    List WrittenAttribute × Option AttributeFault :=
  match hstart : t.dropWhile isMarkupSpace with
  | [] => ([], none)
  | c :: cs =>
    match hread : readOne total seen c cs with
    | .error fault => ([], some fault)
    | .ok (a, rest) =>
      have : rest.length < t.length := by
        have hle := length_dropWhile_le isMarkupSpace t
        have hlt := readOne_length hread
        rw [hstart, List.length_cons] at hle
        omega
      let (others, fault) := readFrom total (seen ++ [a]) rest
      (a :: others, fault)
termination_by t.length

/-- The name of the element in the content of its start tag: everything up to
the first white space. -/
def elementName (content : Text) : Text :=
  content.takeWhile (!isMarkupSpace ·)

/-- Reads the attributes in the content of a start tag, which is what stands
between its `<` and its `>` or `/>`. -/
def readAll (content : Text) : List WrittenAttribute × Option AttributeFault :=
  readFrom (width content) [] (content.dropWhile (!isMarkupSpace ·))

end WrittenAttribute

end SkinMarkup
