import SkinMarkup.Scan.Basic
import SkinMarkup.Visibility

/-!
# From a place in the text to a path

An offset selects an element: the one whose tag it lies on; between tags, the
one before, unless a line ends in between, and then the one after. Going back
from there through the element tokens, the siblings before it and before each
of its ancestors are counted. There is no path if the element or an ancestor
is hidden in the chosen state.
-/

namespace SkinMarkup

/-- Whether a line ends between two byte offsets. -/
def hasLineBreak (start stop : Nat) (t : Text) : Bool :=
  (takeWidth (stop - start) (dropWidth start t)).any fun c => c == '\n' || c == '\r'

/-- The element tokens up to the one that an offset selects, latest first.
`passed` has been passed already. -/
def tokensUpTo (t : Text) (offset : Nat) (passed : List Token) : List Token → List Token
  | [] => passed
  | token :: tokens =>
    if offset < token.start then
      match passed with
      | [] => [token]
      | last :: _ => if hasLineBreak last.stop offset t then token :: passed else passed
    else if offset < token.stop then
      token :: passed
    else
      tokensUpTo t offset (token :: passed) tokens

/-- The start tag that matches an end tag, in tokens that are given latest
first. `depth` counts the end tags that have not been matched. -/
def matchingStart? (depth : Nat) : List Token → Option Token
  | [] => none
  | token :: tokens =>
    match token.kind with
    | .closing => matchingStart? (depth + 1) tokens
    | .opening => if depth = 1 then some token else matchingStart? (depth - 1) tokens
    | _ => matchingStart? depth tokens

/-- The start tag of the element of the latest token. -/
def selectedStart? : List Token → Option Token
  | [] => none
  | token :: tokens =>
    if token.kind = .closing then matchingStart? 0 (token :: tokens) else some token

/-- Counts siblings on the way back. `index` belongs to the depth at hand and
`rest` to the depths below; `depth` is zero among the siblings and negative
inside one of them. -/
def countBack (visible : Token → Bool) (index : Int) (rest : List Int) (depth : Int) :
    List Token → Option (List Int)
  | [] => some (index :: rest)
  | token :: tokens =>
    let shown := visible token
    match token.kind with
    | .selfClosing =>
      if depth = 0 ∧ shown then countBack visible (index + 1) rest depth tokens
      else countBack visible index rest depth tokens
    | .opening =>
      if depth = 0 then
        -- The start tag of the element around the siblings.
        if shown then countBack visible 0 (index :: rest) 0 tokens else none
      else if depth = -1 ∧ shown then
        countBack visible (index + 1) rest 0 tokens
      else
        countBack visible index rest (depth + 1) tokens
    | .closing => countBack visible index rest (depth - 1) tokens
    | _ => countBack visible index rest depth tokens

/-- The path of the element of the latest token. -/
def pathOf (visible : Token → Bool) : List Token → List Nat
  | [] => []
  | token :: tokens =>
    match selectedStart? (token :: tokens) with
    | none => []
    | some start =>
      if visible start then
        let counted :=
          if token.kind = .opening then countBack visible 0 [] 0 tokens
          else countBack visible (-1) [] 0 (token :: tokens)
        match counted with
        | none => []
        | some path => if path.any (· < 0) then [] else path.map Int.toNat
      else
        []

/-- The path of the element at an offset, empty if there is none. The text
has to be well-formed. -/
def pathAt (d : Dialect) (state : Option Text) (offset : Nat) (t : Text) :
    Except ParseFailure (List Nat) :=
  if width t < offset then
    .ok []
  else
    match parseStrict t with
    | .error .misaligned => .error .misaligned
    | .error (.issue _) => .ok []
    | .ok _ => .ok (pathOf (Token.isVisible d state) (tokensUpTo t offset [] (scan t).elements))

end SkinMarkup
