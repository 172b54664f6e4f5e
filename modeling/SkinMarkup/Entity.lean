import SkinMarkup.Text.Search

/-!
# Entity references

In attribute values and in text five characters are written as named
references, and any character may be written by its code point, as `&#65;` or
`&#x41;`. `escape` writes the named references and nothing else; `unescape`
reads all of them.
-/

namespace SkinMarkup

/-- Why a numeric reference stands for no character. -/
inductive ReferenceFault where
  /-- The number starts with a sign. -/
  | signed
  | empty
  | badDigit
  /-- The number needs more than 32 bits. -/
  | tooLarge
  /-- The number is zero. -/
  | zero
  /-- The number is no Unicode scalar value. -/
  | noCharacter (code : Nat)
deriving DecidableEq

/-- Why a text with references cannot be read. Offsets are bytes of that
text. -/
inductive EntityFault where
  /-- An ampersand at `start` without a semicolon before the next ampersand or
  the end of the text at `stop`. -/
  | unterminated (start stop : Nat)
  /-- A name between `start` and `stop` that stands for nothing. -/
  | unknown (start stop : Nat) (name : Text)
  | reference (fault : ReferenceFault)
deriving DecidableEq

namespace ReferenceFault

def message : ReferenceFault → String
  | signed => "unexpected number sign"
  | empty => "cannot parse integer from empty string"
  | badDigit => "invalid digit found in string"
  | tooLarge => "number too large to fit in target type"
  | zero => "0x0 character is not permitted in XML"
  | noCharacter code => "`" ++ toString code ++ "` is not a valid codepoint"

end ReferenceFault

namespace EntityFault

def message : EntityFault → String
  | unterminated start stop =>
    "Error while escaping character at range " ++ toString start ++ ".." ++ toString stop ++
      ": Cannot find ';' after '&'"
  | unknown start stop name =>
    "at " ++ toString start ++ ".." ++ toString stop ++ ": unrecognized entity `" ++
      String.ofList name ++ "`"
  | reference fault => "invalid character reference: " ++ fault.message

end EntityFault

/-! ## Writing -/

/-- The characters with a named reference, each with its name. -/
def entityNames : List (Char × Text) :=
  [('<', ['l', 't']), ('>', ['g', 't']), ('&', ['a', 'm', 'p']), ('\'', ['a', 'p', 'o', 's']),
    ('"', ['q', 'u', 'o', 't'])]

/-- A character as it is written in a value: by its named reference if it has
one. -/
def escapeChar (c : Char) : Text :=
  match entityNames.lookup c with
  | some name => '&' :: name ++ [';']
  | none => [c]

/-- A text as it is written in an attribute value or between tags. -/
def escape (t : Text) : Text :=
  t.flatMap escapeChar

/-! ## Reading -/

/-- The value of a digit in a base up to sixteen. Letters of either case are
digits above nine. -/
def digitValue? (base : Nat) (c : Char) : Option Nat :=
  let value :=
    if '0' ≤ c ∧ c ≤ '9' then some (c.toNat - '0'.toNat)
    else if 'a' ≤ c ∧ c ≤ 'f' then some (c.toNat - 'a'.toNat + 10)
    else if 'A' ≤ c ∧ c ≤ 'F' then some (c.toNat - 'A'.toNat + 10)
    else none
  value.filter (· < base)

/-- Numbers in references are below this bound, so that they fit in 32 bits. -/
def referenceBound : Nat :=
  4294967296

/-- Continues a number with further digits, left to right: the
first bad digit or the first step past 32 bits decides. -/
def numberFrom (base value : Nat) : Text → Except ReferenceFault Nat
  | [] => .ok value
  | c :: cs =>
    match digitValue? base c with
    | none => .error .badDigit
    | some digit =>
      if value * base + digit < referenceBound then numberFrom base (value * base + digit) cs
      else .error .tooLarge

/-- The number written by a text in a base. -/
def number (base : Nat) : Text → Except ReferenceFault Nat
  | [] => .error .empty
  | c :: cs => if c = '+' ∨ c = '-' then .error .signed else numberFrom base 0 (c :: cs)

/-- The character with a code point. -/
def charOfCode (code : Nat) : Except ReferenceFault Char :=
  if code = 0 then .error .zero
  else if code.isValidChar then .ok (Char.ofNat code)
  else .error (.noCharacter code)

/-- The character that a numeric reference stands for, given what follows its
number sign. -/
def numericReference : Text → Except ReferenceFault Char
  | 'x' :: digits => number 16 digits >>= charOfCode
  | digits => number 10 digits >>= charOfCode

/-- A reference that has been opened by an ampersand at byte `start`, with
what has been read of its name. -/
structure PendingReference where
  start : Nat
  name : Text

namespace PendingReference

/-- The character that a completed reference stands for. -/
def resolve (r : PendingReference) : Except EntityFault Char :=
  match r.name with
  | '#' :: number => (numericReference number).mapError .reference
  | name =>
    match entityNames.find? fun entry => entry.2 = name with
    | some (c, _) => .ok c
    | none => .error (.unknown (r.start + 1) (r.start + 1 + width name) name)

end PendingReference

/-- Reads a text whose next character stands at byte `offset` of `total`,
inside a reference or outside one. -/
def unescapeFrom (total offset : Nat) : Option PendingReference → Text → Except EntityFault Text
  | none, [] => .ok []
  | some r, [] => .error (.unterminated r.start total)
  | none, c :: cs =>
    if c = '&' then
      unescapeFrom total (offset + 1) (some ⟨offset, []⟩) cs
    else do
      let rest ← unescapeFrom total (offset + c.utf8Size) none cs
      return c :: rest
  | some r, c :: cs =>
    if c = ';' then do
      let d ← r.resolve
      let rest ← unescapeFrom total (offset + 1) none cs
      return d :: rest
    else if c = '&' then
      .error (.unterminated r.start total)
    else
      unescapeFrom total (offset + c.utf8Size) (some ⟨r.start, r.name ++ [c]⟩) cs

/-- A written text with every reference replaced by its character. -/
def unescape (t : Text) : Except EntityFault Text :=
  unescapeFrom (width t) 0 none t

end SkinMarkup
