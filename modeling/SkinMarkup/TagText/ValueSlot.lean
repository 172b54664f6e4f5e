import SkinMarkup.Text.Blank
import SkinMarkup.Text.Search

/-!
# Finding the value of an attribute in a tag's text

A slot divides the text of a tag around the value of one attribute. It is
found by the spelling of the attribute alone, so it is there in tags that are
not well-formed too.

The usual spellings ` name="` and ` name='` are tried first, double quotes
before single ones. Otherwise the tag is read once more with every blank as a
space; then there may be blanks around the equals sign, and the value reaches
to the last quote before the next equals sign.
-/

namespace SkinMarkup

/-- A tag's text around the value of an attribute. -/
structure ValueSlot where
  /-- What stands before the attribute and the blanks in front of it. -/
  before : Text
  /-- From those blanks to the opening quote. -/
  lead : Text
  value : Text
  /-- From the closing quote on. -/
  after : Text
deriving DecidableEq

namespace ValueSlot

/-- The text that was divided. -/
def source (s : ValueSlot) : Text :=
  s.before ++ s.lead ++ s.value ++ s.after

/-- The text with another value. -/
def replace (s : ValueSlot) (value : Text) : Text :=
  s.before ++ s.lead ++ value ++ s.after

/-- The text without the attribute and the blanks in front of it. -/
def remove (s : ValueSlot) : Text :=
  trimEnd s.before ++ s.after.drop 1

/-- The byte at which the attribute starts, with the blanks in front of it. -/
def attributeStart (s : ValueSlot) : Nat :=
  width s.before

def valueStart (s : ValueSlot) : Nat :=
  s.attributeStart + width s.lead

def valueStop (s : ValueSlot) : Nat :=
  s.valueStart + width s.value

/-- The start of an attribute in its usual spelling. -/
def opener (name : Text) (quote : Char) : Text :=
  ' ' :: name ++ ['=', quote]

/-- The slot of an attribute in its usual spelling, which stands between
`before` and `after`. Blanks other than spaces before it belong to it. -/
def ofOpener (name : Text) (quote : Char) (before after : Text) : Option ValueSlot :=
  (cutAt quote after).map fun (value, rest) =>
    { before := dropEndWhile isLayout before
      lead := takeEndWhile isLayout before ++ opener name quote
      value
      after := quote :: rest }

/-- A text with every blank as a space. -/
def flatten (t : Text) : Text :=
  t.map fun c => if isLayout c then ' ' else c

/-- In a flattened tag, the number of characters before an attribute and the
number up to its equals sign and with it. -/
def locate (name flat : Text) : Option (Nat × Nat) :=
  match cutAtWord (' ' :: name ++ ['=']) flat with
  | some (before, _) => some (before.length, before.length + name.length + 2)
  | none => do
    let (before, _) ← cutAtWord (' ' :: name ++ [' ']) flat
    let (middle, _) ← cutAt '=' (flat.drop before.length)
    return (before.length, before.length + middle.length + 1)

/-- The number of characters between an equals sign and the value after it,
its quote included, and the length of the value. The value is in double
quotes if there are any. -/
def measure (afterEquals : Text) : Option (Nat × Nat) := do
  let rest := afterEquals.takeWhile (· != '=')
  let quote := if rest.contains '"' then '"' else '\''
  let (pad, more) ← cutAt quote rest
  let (value, _) ← cutAtLast quote more
  return (pad.length + 1, value.length)

/-- The slot of an attribute in any spelling. -/
def findRelaxed (name tag : Text) : Option ValueSlot := do
  let flat := flatten tag
  let (start, equals) ← locate name flat
  let (pad, length) ← measure (flat.drop equals)
  let valueStart := equals + pad
  return {
    before := tag.take start
    lead := (tag.take valueStart).drop start
    value := (tag.drop valueStart).take length
    after := tag.drop (valueStart + length) }

/-- The slot of the attribute `name` in a tag's text. -/
def find? (name tag : Text) : Option ValueSlot :=
  match cutAtWord (opener name '"') tag with
  | some (before, after) => ofOpener name '"' before after
  | none =>
    match cutAtWord (opener name '\'') tag with
    | some (before, after) => ofOpener name '\'' before after
    | none => findRelaxed name tag

end ValueSlot

end SkinMarkup
