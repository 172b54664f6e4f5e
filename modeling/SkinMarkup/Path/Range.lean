import SkinMarkup.Scan.Basic
import SkinMarkup.Visibility

/-!
# From a path to a place in the text

The element tokens of a text are counted from left to right against the
indices of a path, so the text need not be well-formed. The first remaining
index counts down as siblings pass. `depth` is the number of elements that
are open below the one whose children are counted; it falls below zero when
that one is closed.
-/

namespace SkinMarkup

/-- The tags of an element. The end tag of an empty element is the empty span
after it. -/
structure ElementRange where
  head : Option Span
  tail : Option Span
deriving DecidableEq

namespace ElementRange

/-- Nothing has been found. -/
def missing : ElementRange :=
  ⟨none, none⟩

/-- The element with both tags. -/
def span? (r : ElementRange) : Option Span :=
  match r.head, r.tail with
  | some head, some tail => some ⟨head.start, tail.stop⟩
  | _, _ => none

end ElementRange

/-- Changes the first of the remaining indices. -/
def adjustFirst (amount : Int) : List Int → List Int
  | [] => []
  | index :: rest => (index + amount) :: rest

/-- The remaining indices and the depth after a token. There are none if the
path goes on below an empty element. -/
def advance (kind : TokenKind) (remaining : List Int) (depth : Int) : Option (List Int × Int) :=
  match kind with
  | .selfClosing =>
    if depth = 0 then
      match remaining with
      | [] => some ([], depth)
      | index :: rest =>
        if index = 0 then
          if rest = [] then some ([], depth) else none
        else
          some ((index - 1) :: rest, depth)
    else
      some (remaining, depth)
  | .opening =>
    match remaining with
    | 0 :: rest => some (rest, 0)
    | _ => some (remaining, depth + 1)
  | .closing =>
    if depth - 1 = 0 then some (adjustFirst (-1) remaining, depth - 1)
    else some (remaining, depth - 1)
  | _ => some (remaining, depth)

/-- Looks for the element at the remaining indices. `head` is its start tag,
once it has been found. -/
def seekRange (visible : Token → Bool) (remaining : List Int) (depth : Int) (head : Option Span) :
    List Token → ElementRange
  | [] => ⟨head, none⟩
  | token :: tokens =>
    -- A hidden token takes back the count that it is about to get.
    let remaining :=
      if remaining ≠ [] ∧ depth = 0 ∧ !visible token then adjustFirst 1 remaining else remaining
    match advance token.kind remaining depth with
    | none => ElementRange.missing
    | some (remaining, depth) =>
      if remaining = [] then
        match head with
        | none =>
          if token.kind = .selfClosing then ⟨some token.span, some ⟨token.stop, token.stop⟩⟩
          else seekRange visible remaining depth (some token.span) tokens
        | some head =>
          if depth = -1 then ⟨some head, some token.span⟩
          else seekRange visible remaining depth (some head) tokens
      else
        seekRange visible remaining depth head tokens

/-- The number of values that an index of 64 bits can have. -/
def indexRange : Nat :=
  18446744073709551616

/-- An index of 64 bits as a signed number. -/
def signedIndex (index : Nat) : Int :=
  Int.bmod index indexRange

/-- The element at a path in a text. Tags that are hidden in the chosen state
do not count. -/
def rangeAt (d : Dialect) (state : Option Text) (path : List Nat) (t : Text) : ElementRange :=
  seekRange (Token.isVisible d state) (path.map signedIndex) 0 none (scan t).elements

end SkinMarkup
